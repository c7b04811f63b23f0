import SELinux.Sepol.AssertionXperms
import SELinux.Sepol.HierarchySound
import SELinux.Sepol.ComputeSid
import SELinux.Sepol.LoadPolicy
import SELinux.Sepol.FilenameTrans
import SELinux.Sepol.SidtabLaws
import SELinux.Sepol.AvtabOldFormat
import SELinux.Checkpolicy.IoctlRules
import SELinux.Sepol.Genfs
import SELinux.Cil.PostProcess
import SELinux.Cil.TypeRules
import SELinux.Label.FileCmp
import SELinux.Label.StemFilter
import SELinux.Sepol.ExpandAvtabAccess
import SELinux.Cil.AvRulesAccess
import SELinux.Sepol.SymtabInsert
import SELinux.Avc.CacheIntegrity
import SELinux.Cil.OrderedListsMerge
import SELinux.Semanage.CommitSandbox
import SELinux.Sepol.ConditionalTree
import SELinux.Sepol.Tunables
import SELinux.Sepol.MlsTextBuffer
import SELinux.Sepol.MlsGrammar
import SELinux.Sepol.EbitmapWrite
import SELinux.Checkpolicy.PermScopePasses
import SELinux.Checkpolicy.RoleDominance
import SELinux.Sepol.RoleRules
import SELinux.Cil.SetExprEval
import SELinux.Label.FileCompile
import SELinux.Sepol.ConditionalNormalize
import SELinux.Sepol.Hashtab
import SELinux.Sepol.XpermsText
import SELinux.Sepol.CatsText
import SELinux.Android.SeappTies
import SELinux.Android.SeappReload
import SELinux.Label.Context
import SELinux.Sepol.PortLabels
import SELinux.Cil.BoundsCycle
import SELinux.Checkpolicy.NodeOrder
import SELinux.Semanage.FcSort
import SELinux.Sepol.ConditionalOptimize
import SELinux.Semanage.PortsLocal
import SELinux.Sepolgen.XpermSet
import SELinux.Avc.Status
