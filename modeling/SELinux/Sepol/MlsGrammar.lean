import Mathlib.Data.List.TakeWhile
import SELinux.Sepol.MlsTextRoundTrip
import SELinux.Sepol.Users

/-! The grammar of ranges, and the texts that `mls_from_string` accepts. The reader splits a text at
the first delimiter it meets, and does not look at what follows a dash behind the categories of the
high level. -/
namespace SELinux.Sepol

open List Option

/-! ## The grammar -/

/-- `c` or `c.d`. -/
inductive CatForm where
  | one (name : Name)
  | range (first last : Name)

def CatForm.text : CatForm → Name
  | .one name => name
  | .range first last => first ++ '.' :: last

/-- The names are defined, and a range goes upwards. -/
def CatForm.Defined (syms : MlsSymbols) : CatForm → Prop
  | .one name => ∃ value, syms.cats.lookup name = some value
  | .range first last => ∃ value limit, syms.cats.lookup first = some value ∧
      syms.cats.lookup last = some limit ∧ value < limit

/-- `sens[:catlist]`; there is no list if there is no entry. -/
structure LevelForm where
  sens : Name
  cats : List CatForm := []

namespace LevelForm

def text (l : LevelForm) : Name := l.sens ++ tokensText (l.cats.map CatForm.text)

structure Defined (syms : MlsSymbols) (l : LevelForm) : Prop where
  sens : ∃ level, syms.levels.lookup l.sens = some level
  cats : ∀ e ∈ l.cats, e.Defined syms

end LevelForm

/-- `sens[:catlist][-sens[:catlist]]`, with defined names. -/
def RangeForm (syms : MlsSymbols) (str : Name) : Prop :=
  ∃ low : LevelForm, low.Defined syms ∧
    (str = low.text ∨ ∃ high : LevelForm, high.Defined syms ∧ str = low.text ++ '-' :: high.text)

/-! ## How the reader splits -/

namespace CatForm

def first : CatForm → Name
  | .one name => name
  | .range first _ => first

def last : CatForm → Name
  | .one name => name
  | .range _ last => last

/-- An entry that is cut off as a whole and split at its dot, and whose categories have a bit. -/
structure Readable (syms : MlsSymbols) (e : CatForm) : Prop where
  defined : e.Defined syms
  delim : ∀ c ∈ e.text, c ≠ ',' ∧ c ≠ '-'
  dot : ∀ c ∈ e.first, c ≠ '.'
  value : ∀ value, syms.cats.lookup e.first = some value → 0 < value
  limit : ∀ limit, syms.cats.lookup e.last = some limit → limit ≤ ebitmapLimit

end CatForm

/-- A level whose sensitivity ends where the reader stops. -/
structure LevelForm.Readable (stop : Char → Bool) (syms : MlsSymbols) (l : LevelForm) : Prop where
  sens : ∃ level, syms.levels.lookup l.sens = some level
  delim : ∀ c ∈ l.sens, stop c = false
  cats : ∀ e ∈ l.cats, e.Readable syms

variable {l : LevelForm}

theorem LevelForm.Readable.defined {stop syms} (h : l.Readable stop syms) : l.Defined syms :=
  ⟨h.sens, fun e he => (h.cats e he).defined⟩

/-- Where the low sensitivity ends. -/
def lowStop (c : Char) : Bool := c == ':' || c == '-'

/-- Where the high sensitivity ends. -/
def highStop (c : Char) : Bool := c == ':'

/-- A text of the grammar that the reader splits as it is meant. -/
def ReadForm (syms : MlsSymbols) (str : Name) : Prop :=
  ∃ low : LevelForm, low.Readable lowStop syms ∧
    (str = low.text ∨ ∃ high : LevelForm, high.Readable highStop syms ∧
      str = low.text ++ '-' :: high.text)

/-- Two levels, the second one with categories, and a dash with anything behind it. -/
def TailForm (syms : MlsSymbols) (str : Name) : Prop :=
  ∃ low : LevelForm, low.Readable lowStop syms ∧ ∃ high : LevelForm, high.Readable highStop syms ∧
    high.cats ≠ [] ∧ ∃ tail, str = low.text ++ '-' :: (high.text ++ '-' :: tail)

/-! ## Tokens -/

theorem span_spec (test : Char → Bool) (p : Name) : ∃ token tail, p.span test = (token, tail) ∧
    p = token ++ tail ∧ (∀ c ∈ token, test c = true) ∧ ∀ c ∈ tail.head?, test c = false := by
  refine ⟨p.takeWhile test, p.dropWhile test, span_eq_takeWhile_dropWhile test p,
    takeWhile_append_dropWhile.symm,
    fun c hc => mem_takeWhile_imp hc, fun c hc => ?_⟩
  cases htail : p.dropWhile test with
  | nil => simp [htail] at hc
  | cons d tail =>
    obtain rfl : d = c := by simpa [htail] using hc
    have hne : p.dropWhile test ≠ [] := by simp [htail]
    have hhead := head_dropWhile_not test hne
    simpa [htail] using hhead

theorem mlsToken_spec (stop : Char → Bool) (p : Name) :
    ∃ token tail, mlsToken stop p = (token, tail.head?, tail.tail) ∧
    p = token ++ tail ∧ (∀ c ∈ token, stop c = false) ∧ ∀ c ∈ tail.head?, stop c = true := by
  obtain ⟨token, tail, hspan, hp, htoken, htail⟩ := span_spec (fun c => !stop c) p
  refine ⟨token, tail, ?_, hp, fun c hc => by simpa using htoken c hc, fun c hc => by
    simpa using htail c hc⟩
  rw [mlsToken, hspan]
  cases tail with
  | nil => rfl
  | cons c tail => rfl

theorem lt_of_ebitmapSetBit_true {e e' b} (h : (ebitmapSetBit e b true).toOption = some e') :
    b < ebitmapLimit := by
  by_contra hb
  rw [ebitmapSetBit, dif_neg hb] at h
  cases h

theorem mlsSetCats_le {cat cat' value n} (h : mlsSetCats cat value (n + 1) = some cat') :
    value + (n + 1) ≤ ebitmapLimit := by
  induction n generalizing cat value with
  | zero =>
    obtain ⟨next, hnext, -⟩ := bind_eq_some_iff.mp h
    exact lt_of_ebitmapSetBit_true hnext
  | succ n ih =>
    obtain ⟨next, -, h⟩ := bind_eq_some_iff.mp h
    have hle := ih h
    omega

variable (syms : MlsSymbols)

theorem mlsReadCats_one (cat : Ebitmap) {name : Name} (hdot : ∀ c ∈ name, c ≠ '.') :
    mlsReadCats syms cat name = (syms.cats.lookup name).bind (mlsSetCat cat) := by
  have hspan : (name ++ []).span (fun c => c != '.') = (name, []) :=
    span_append (fun c hc => by simpa using hdot c hc) (by simp)
  rw [append_nil] at hspan
  unfold mlsReadCats
  rw [hspan]
  simp

theorem mlsReadCats_dot (cat : Ebitmap) {first : Name} (last : Name) (hdot : ∀ c ∈ first, c ≠ '.') :
    mlsReadCats syms cat (first ++ '.' :: last) = (syms.cats.lookup first).bind fun value =>
      (mlsSetCat cat value).bind fun cat => (syms.cats.lookup last).bind fun limit =>
          if limit ≤ value then none else mlsSetCats cat value (limit - value) := by
  have hspan : (first ++ '.' :: last).span (fun c => c != '.') = (first, '.' :: last) :=
    span_append (fun c hc => by simpa using hdot c hc) (by simp)
  unfold mlsReadCats
  rw [hspan]
  rfl

theorem mlsSetCat_of_le {value : Nat} (hpos : 0 < value) (hle : value ≤ ebitmapLimit)
    (cat : Ebitmap) : ∃ cat', mlsSetCat cat value = some cat' := by
  rw [mlsSetCat, if_neg (by omega), ebitmapSetBit_true (by omega)]
  exact ⟨_, rfl⟩

theorem le_of_mlsSetCat {value cat cat'} (h : mlsSetCat cat value = some cat') :
    0 < value ∧ value ≤ ebitmapLimit := by
  rw [mlsSetCat] at h
  split_ifs at h with hzero
  have hlt := lt_of_ebitmapSetBit_true h
  omega

variable {e : CatForm} {es : List CatForm} {tail str : Name} {c : Char}

/-- An entry is read, whatever has been read before. -/
theorem CatForm.Readable.read {syms} (h : e.Readable syms) (cat : Ebitmap) :
    ∃ cat', mlsReadCats syms cat e.text = some cat' := by
  cases e with
  | one name =>
    obtain ⟨value, hvalue⟩ := h.defined
    rw [CatForm.text, mlsReadCats_one syms cat (show ∀ c ∈ name, c ≠ '.' from h.dot), hvalue]
    exact mlsSetCat_of_le (h.value value hvalue) (h.limit value hvalue) cat
  | range first last =>
    obtain ⟨value, limit, hvalue, hlimit, hlt⟩ := h.defined
    have hle := h.limit limit hlimit
    obtain ⟨next, hnext⟩ := mlsSetCat_of_le (h.value value hvalue) (by omega) cat
    rw [CatForm.text, mlsReadCats_dot syms cat last (show ∀ c ∈ first, c ≠ '.' from h.dot), hvalue,
      bind_some, hnext,
      bind_some, hlimit, bind_some, if_neg (by omega)]
    obtain ⟨cat', hcat', -⟩ :=
      mlsSetCats_spec (show value + (limit - value) ≤ ebitmapLimit by omega) next
    exact ⟨cat', hcat'⟩

theorem readable_of_mlsReadCats {syms cat cat' token} (hdelim : ∀ c ∈ token, c ≠ ',' ∧ c ≠ '-')
    (h : mlsReadCats syms cat token = some cat') :
    ∃ e : CatForm, token = e.text ∧ e.Readable syms := by
  obtain ⟨first, tail, -, rfl, hfirst, htail⟩ := span_spec (fun c => c != '.') token
  have hdot : ∀ c ∈ first, c ≠ '.' := fun c hc => by simpa using hfirst c hc
  cases tail with
  | nil =>
    rw [append_nil] at h hdelim ⊢
    rw [mlsReadCats_one syms cat hdot] at h
    obtain ⟨value, hvalue, h⟩ := bind_eq_some_iff.mp h
    have hbounds := le_of_mlsSetCat h
    refine ⟨.one first, rfl, ⟨value, hvalue⟩, hdelim, hdot, fun v hv => ?_, fun v hv => ?_⟩
    · cases hvalue.symm.trans hv
      exact hbounds.1
    · cases hvalue.symm.trans hv
      exact hbounds.2
  | cons d last =>
    obtain rfl : d = '.' := by simpa using htail d rfl
    rw [mlsReadCats_dot syms cat last hdot] at h
    obtain ⟨value, hvalue, h⟩ := bind_eq_some_iff.mp h
    obtain ⟨next, hnext, h⟩ := bind_eq_some_iff.mp h
    obtain ⟨limit, hlimit, h⟩ := bind_eq_some_iff.mp h
    split_ifs at h with hle
    obtain ⟨n, hn⟩ := Nat.exists_eq_add_of_lt (Nat.lt_of_not_le hle)
    rw [hn, show value + n + 1 - value = n + 1 by omega] at h
    have hmax := mlsSetCats_le h
    refine ⟨.range first last, rfl, ⟨value, limit, hvalue, hlimit, by omega⟩, hdelim, hdot,
      fun v hv => ?_, fun v hv => ?_⟩
    · cases hvalue.symm.trans hv
      exact (le_of_mlsSetCat hnext).1
    · cases hlimit.symm.trans hv
      omega

/-! ## Category sets -/

theorem foldlM_mlsReadCats {syms} (hes : ∀ e ∈ es, e.Readable syms)
    (cat : Ebitmap) : ∃ cat', (es.map CatForm.text).foldlM (mlsReadCats syms) cat = some cat' := by
  induction es generalizing cat with
  | nil => exact ⟨cat, rfl⟩
  | cons e es ih =>
    obtain ⟨he, hes⟩ := forall_mem_cons.mp hes
    obtain ⟨next, hnext⟩ := he.read cat
    simp_all

/-- A category set that is read consists of entries, and a dash or the end follows. -/
theorem forms_of_mlsCategories {syms fuel cat p r} (h : mlsCategories syms fuel cat p = some r) :
    ∃ e es tail, (∀ x ∈ e :: es, CatForm.Readable syms x) ∧ EndsLevel tail ∧
      r.2 = (tail.head?, tail.tail) ∧
      p = e.text ++ ((es.map CatForm.text).flatMap (',' :: ·) ++ tail) := by
  induction fuel generalizing cat p with
  | zero => cases h
  | succ fuel ih =>
    obtain ⟨token, tail, htoken, rfl, hdelim, htail⟩ :=
      mlsToken_spec (fun c => c == ',' || c == '-') p
    rw [mlsCategories, htoken] at h
    obtain ⟨next, hnext, hrest⟩ := bind_eq_some_iff.mp h
    obtain ⟨e, rfl, he⟩ := readable_of_mlsReadCats (fun c hc => by simpa using hdelim c hc) hnext
    by_cases hcomma : tail.head? = some ','
    · rw [if_pos hcomma] at hrest
      obtain ⟨e', es, tail', hes, hend, hr, hp⟩ := ih hrest
      refine ⟨e, e' :: es, tail', forall_mem_cons.mpr ⟨he, hes⟩, hend, hr, ?_⟩
      have htext : tail = ',' :: tail.tail := by
        cases tail with
        | nil => cases hcomma
        | cons c tail => simpa using hcomma
      rw [htext, hp]
      simp
    · rw [if_neg hcomma] at hrest
      cases hrest
      refine ⟨e, [], tail, by simpa using he, fun c hc => ?_, rfl, by simp⟩
      have hstop := htail c hc
      simp only [Bool.or_eq_true, beq_iff_eq] at hstop
      refine hstop.resolve_left fun hc' => hcomma ?_
      rw [← hc']
      exact hc

/-! ## Levels -/

/-- The level that begins with the token up to a stop. -/
def mlsLevelAt (stop : Char → Bool) (syms : MlsSymbols) (p : Name) :
    Option (MlsLevel × Option Char × Name) :=
  mlsReadLevel syms (mlsToken stop p).1 (mlsToken stop p).2.1 (mlsToken stop p).2.2

theorem LevelForm.Readable.read {stop syms} (h : l.Readable stop syms)
    (hcolon : stop ':' = true) (htail : EndsLevel tail)
    (hdash : l.cats = [] → ∀ c ∈ tail.head?, stop c = true) :
    ∃ level, mlsLevelAt stop syms (l.text ++ tail) = some (level, tail.head?, tail.tail) := by
  obtain ⟨datum, hdatum⟩ := h.sens
  obtain ⟨cat, hcat⟩ := foldlM_mlsReadCats h.cats ∅
  have hdelim : ∀ t ∈ l.cats.map CatForm.text, ∀ c ∈ t, c ≠ ',' ∧ c ≠ '-' :=
    forall_mem_map.mpr fun e he => (h.cats e he).delim
  rw [mlsLevelAt, LevelForm.text, append_assoc]
  rcases htoken :
    mlsToken stop (l.sens ++ (tokensText (l.cats.map CatForm.text) ++ tail)) with ⟨first, delim,
      rest⟩
  have hread := mlsReadLevel_text tail hcolon h.delim hdatum hdelim htail
    (fun hnil => hdash (map_eq_nil_iff.mp hnil)) htoken
  rw [hcat] at hread
  exact ⟨_, hread⟩

/-- A level that is read, and what follows it. -/
theorem form_of_mlsLevelAt {stop} (hstop : ∀ c, stop c = true → c = ':' ∨ c = '-') {syms p r}
    (h : mlsLevelAt stop syms p = some r) :
    ∃ (l : LevelForm) (tail : Name), l.Readable stop syms ∧ p = l.text ++ tail ∧ EndsLevel tail ∧
      r.2 = (tail.head?, tail.tail) ∧ (l.cats = [] → ∀ c ∈ tail.head?, stop c = true) := by
  obtain ⟨token, tail, htoken, hp, hdelim, htail⟩ := mlsToken_spec stop p
  rw [mlsLevelAt, htoken, mlsReadLevel] at h
  obtain ⟨datum, hdatum, hrest⟩ := bind_eq_some_iff.mp h
  by_cases hcolon : tail.head? = some ':'
  · rw [if_pos hcolon] at hrest
    obtain ⟨cats, hcats, hr⟩ := bind_eq_some_iff.mp hrest
    cases hr
    obtain ⟨e, es, tail', hes, hend, hr, htext⟩ := forms_of_mlsCategories hcats
    refine ⟨{ sens := token, cats := e :: es }, tail', ⟨⟨datum, hdatum⟩, hdelim, hes⟩, ?_, hend,
      hr, by simp⟩
    have htail' : tail = ':' :: tail.tail := by
      cases tail with
      | nil => cases hcolon
      | cons c tail => simpa using hcolon
    replace htext : tail.tail = _ := htext
    rw [hp, htail', htext]
    simp [LevelForm.text, tokensText]
  · rw [if_neg hcolon] at hrest
    cases hrest
    refine ⟨{ sens := token }, tail, ⟨⟨datum, hdatum⟩, hdelim, by simp⟩, by
      simpa [LevelForm.text, tokensText] using hp,
      fun c hc => (hstop c (htail c hc)).resolve_left fun hc' => hcolon ?_, rfl, fun _ => htail⟩
    rw [← hc']
    exact hc

/-! ## Ranges -/

theorem lowStop_iff : lowStop c = true ↔ c = ':' ∨ c = '-' := by
  simp [lowStop]

theorem highStop_iff : highStop c = true ↔ c = ':' := by
  simp [highStop]

theorem EndsLevel.cases (h : EndsLevel tail) : tail = [] ∨ ∃ rest, tail = '-' :: rest := by
  cases tail with
  | nil => exact .inl rfl
  | cons c rest => exact .inr ⟨rest, by rw [h c rfl]⟩

theorem endsLevel_nil : EndsLevel [] := fun c hc => by cases hc

theorem endsLevel_dash (rest : Name) : EndsLevel ('-' :: rest) := fun c hc => by cases hc; rfl

theorem mlsContextToSid_eq (str : Name) :
    mlsContextToSid syms str = (mlsLevelAt lowStop syms str).bind fun q => if q.2.1 = some '-' then
        (mlsLevelAt highStop syms q.2.2).bind fun q' => some { low := q.1, high := q'.1 }
      else some { low := q.1, high := q.1 } := rfl

theorem form_of_mlsContextToSid {syms str r} (h : mlsContextToSid syms str = some r) :
    ReadForm syms str ∨ TailForm syms str := by
  rw [mlsContextToSid_eq] at h
  obtain ⟨q, hq, hrest⟩ := bind_eq_some_iff.mp h
  obtain ⟨low, tail, hlow, rfl, hend, hdelim, -⟩ :=
    form_of_mlsLevelAt (fun c hc => lowStop_iff.mp hc) hq
  rw [hdelim] at hrest
  rcases hend.cases with rfl | ⟨rest, rfl⟩
  · exact .inl ⟨low, hlow, .inl (append_nil _)⟩
  · obtain ⟨q', hq', -⟩ := bind_eq_some_iff.mp hrest
    obtain ⟨high, tail, hhigh, hp, hend, -, hcats⟩ :=
      form_of_mlsLevelAt (fun c hc => .inl (highStop_iff.mp hc)) hq'
    replace hp : rest = _ := hp
    rcases hend.cases with rfl | ⟨garbage, rfl⟩
    · exact .inl ⟨low, hlow, .inr ⟨high, hhigh, by rw [hp, append_nil]⟩⟩
    · -- the high sensitivity does not end at a dash, so there are categories
      refine .inr ⟨low, hlow, high, hhigh, fun hnil => ?_, garbage, by rw [hp]⟩
      exact absurd (hcats hnil '-' rfl) (by decide)

theorem mlsContextToSid_of_levels {syms} {low high : LevelForm} (hlow : low.Readable lowStop syms)
    (hhigh : high.Readable highStop syms) (hend : EndsLevel tail)
    (hdash : high.cats = [] → ∀ c ∈ tail.head?, highStop c = true) :
    ∃ r, mlsContextToSid syms (low.text ++ '-' :: (high.text ++ tail)) = some r := by
  obtain ⟨l, hl⟩ :=
    hlow.read rfl (endsLevel_dash (high.text ++ tail)) fun _ c hc => by cases hc; rfl
  obtain ⟨l', hl'⟩ := hhigh.read rfl hend hdash
  simp [mlsContextToSid_eq, hl, hl']

/-- The texts that are accepted. -/
theorem mlsContextToSid_isSome_iff (str : Name) :
    (∃ r, mlsContextToSid syms str = some r) ↔ ReadForm syms str ∨ TailForm syms str := by
  constructor
  · rintro ⟨r, h⟩
    exact form_of_mlsContextToSid h
  · rintro (⟨low, hlow, rfl | ⟨high, hhigh, rfl⟩⟩ | ⟨low, hlow, high, hhigh, hcats, tail, rfl⟩)
    · obtain ⟨l, hl⟩ := hlow.read rfl endsLevel_nil fun _ c hc => by cases hc
      rw [append_nil] at hl
      simp [mlsContextToSid_eq, hl]
    · obtain ⟨r, hr⟩ := mlsContextToSid_of_levels hlow hhigh endsLevel_nil fun _ c hc => by cases hc
      rw [append_nil] at hr
      exact ⟨r, hr⟩
    · exact mlsContextToSid_of_levels hlow hhigh (endsLevel_dash tail) fun hnil => absurd hnil hcats

/-! ## The grammar and the reader -/

/-- No name has a delimiter, and every category has a bit. -/
structure MlsSymbols.Plain (syms : MlsSymbols) : Prop where
  sens : ∀ name level, syms.levels.lookup name = some level → PlainName name
  cats : ∀ name value, syms.cats.lookup name = some value → PlainName name ∧ 0 < value ∧
    value ≤ ebitmapLimit

theorem MlsSymbols.plain_of_entries {syms : MlsSymbols}
    (hsens : ∀ entry ∈ syms.levels, PlainName entry.1)
    (hcats : ∀ entry ∈ syms.cats, PlainName entry.1 ∧ 0 < entry.2 ∧ entry.2 ≤ ebitmapLimit) :
      syms.Plain where
  sens name level h := hsens (name, level) (Lib.mem_of_lookup h)
  cats name value h := hcats (name, value) (Lib.mem_of_lookup h)

theorem ReadForm.rangeForm {syms str} (h : ReadForm syms str) : RangeForm syms str := by
  obtain ⟨low, hlow, hstr | ⟨high, hhigh, hstr⟩⟩ := h
  · exact ⟨low, hlow.defined, .inl hstr⟩
  · exact ⟨low, hlow.defined, .inr ⟨high, hhigh.defined, hstr⟩⟩

theorem mem_of_dash_mem_tokensText (h : '-' ∈ tokensText (es.map CatForm.text)) :
    ∃ e ∈ es, '-' ∈ e.text := by
  cases es with
  | nil => cases h
  | cons e es =>
    simp only [map_cons, tokensText, cons_append, mem_cons, mem_append, mem_flatMap,
      List.mem_map] at h
    simpa using h

namespace MlsSymbols.Plain

variable {syms : MlsSymbols} (hplain : syms.Plain)
include hplain

theorem catForm (h : e.Defined syms) : e.Readable syms := by
  cases e with
  | one name =>
    obtain ⟨value, hvalue⟩ := h
    obtain ⟨hname, hpos, hle⟩ := hplain.cats name value hvalue
    refine ⟨⟨value, hvalue⟩, fun c hc => ⟨(hname c hc).2.2.1, (hname c hc).2.1⟩, fun c hc =>
      (hname c hc).2.2.2,
      fun v hv => (hplain.cats name v hv).2.1, fun v hv => (hplain.cats name v hv).2.2⟩
  | range first last =>
    obtain ⟨value, limit, hvalue, hlimit, hlt⟩ := h
    have hfirst := (hplain.cats first value hvalue).1
    have hlast := (hplain.cats last limit hlimit).1
    refine ⟨⟨value, limit, hvalue, hlimit, hlt⟩, fun c hc => ?_, fun c hc => (hfirst c hc).2.2.2,
      fun v hv => (hplain.cats first v hv).2.1, fun v hv => (hplain.cats last v hv).2.2⟩
    simp only [CatForm.text, mem_append, mem_cons] at hc
    rcases hc with hc | rfl | hc
    · exact ⟨(hfirst c hc).2.2.1, (hfirst c hc).2.1⟩
    · decide
    · exact ⟨(hlast c hc).2.2.1, (hlast c hc).2.1⟩

theorem levelForm (h : l.Defined syms) {stop}
    (hstop : ∀ c, stop c = true → c = ':' ∨ c = '-') : l.Readable stop syms := by
  refine ⟨h.sens, fun c hc => ?_, fun e he => hplain.catForm (h.cats e he)⟩
  obtain ⟨level, hlevel⟩ := h.sens
  have hname := hplain.sens l.sens level hlevel c hc
  by_contra hc'
  exact (hstop c (by simpa using hc')).elim hname.1 hname.2.1

theorem readForm (h : RangeForm syms str) : ReadForm syms str := by
  have hlow (c : Char) (hc : lowStop c = true) : c = ':' ∨ c = '-' := lowStop_iff.mp hc
  have hhigh (c : Char) (hc : highStop c = true) : c = ':' ∨ c = '-' := .inl (highStop_iff.mp hc)
  obtain ⟨low, hlowDef, hstr | ⟨high, hhighDef, hstr⟩⟩ := h
  · exact ⟨low, hplain.levelForm hlowDef hlow, .inl hstr⟩
  · exact ⟨low, hplain.levelForm hlowDef hlow, .inr ⟨high, hplain.levelForm hhighDef hhigh, hstr⟩⟩

/-- A level has no dash. -/
theorem count_dash (h : l.Defined syms) : l.text.count '-' = 0 := by
  rw [count_eq_zero]
  intro hdash
  obtain ⟨level, hlevel⟩ := h.sens
  rw [LevelForm.text, mem_append] at hdash
  rcases hdash with hdash | hdash
  · exact (hplain.sens _ level hlevel '-' hdash).2.1 rfl
  · obtain ⟨e, he, hmem⟩ := mem_of_dash_mem_tokensText hdash
    exact ((hplain.catForm (h.cats e he)).delim '-' hmem).2 rfl

theorem not_tailForm (h : RangeForm syms str) : ¬ TailForm syms str := by
  rintro ⟨low, hlow, high, hhigh, -, tail, rfl⟩
  have hlow' := hplain.count_dash hlow.defined
  have hhigh' := hplain.count_dash hhigh.defined
  obtain ⟨l, hl, hstr | ⟨l', hl', hstr⟩⟩ := h
  · have hcount := congrArg (count '-') hstr
    rw [hplain.count_dash hl] at hcount
    simp at hcount
  · have hcount := congrArg (count '-') hstr
    simp [hplain.count_dash hl, hplain.count_dash hl', hlow', hhigh'] at hcount

end MlsSymbols.Plain

/-- What `mls_from_string` accepts is the grammar exactly for texts that, if they are of the
grammar, are split as meant, and that are not continued behind the high level. Where the names have
no delimiters the second condition is all. -/
theorem mlsFromString_grammar_iff (p : FullPolicydb) (str : Name) :
    (((∃ r, mlsFromString p false str = some r) ↔ RangeForm p.mlsDb.toMlsSymbols str) ↔
      (RangeForm p.mlsDb.toMlsSymbols str → ReadForm p.mlsDb.toMlsSymbols str ∨
        TailForm p.mlsDb.toMlsSymbols str) ∧
        (TailForm p.mlsDb.toMlsSymbols str → RangeForm p.mlsDb.toMlsSymbols str)) ∧
    (p.mlsDb.toMlsSymbols.Plain →
      (((∃ r, mlsFromString p false str = some r) ↔ RangeForm p.mlsDb.toMlsSymbols str) ↔
        ¬ TailForm p.mlsDb.toMlsSymbols str)) := by
  have haccept : (∃ r, mlsFromString p false str = some r) ↔
      ReadForm p.mlsDb.toMlsSymbols str ∨ TailForm p.mlsDb.toMlsSymbols str :=
    mlsContextToSid_isSome_iff p.mlsDb.toMlsSymbols str
  have hread : ReadForm p.mlsDb.toMlsSymbols str → RangeForm p.mlsDb.toMlsSymbols str :=
    ReadForm.rangeForm
  refine ⟨by tauto, fun hplain => ?_⟩
  have hform : RangeForm p.mlsDb.toMlsSymbols str → ReadForm p.mlsDb.toMlsSymbols str :=
    hplain.readForm
  have htail : RangeForm p.mlsDb.toMlsSymbols str → ¬ TailForm p.mlsDb.toMlsSymbols str :=
    hplain.not_tailForm
  tauto

/-- One sensitivity and one category. -/
def oneCategory : FullPolicydb :=
  { mls := true, mlsDb := { levels := [(['s', '0'], { sens := 1 })], cats := [(['c', '0'], 1)] } }

theorem oneCategory_plain : oneCategory.mlsDb.toMlsSymbols.Plain :=
  MlsSymbols.plain_of_entries (by decide) (by decide)

theorem oneCategory_level : LevelForm.Defined oneCategory.mlsDb.toMlsSymbols
    { sens := ['s', '0'], cats := [.one ['c', '0']] } :=
  ⟨⟨_, rfl⟩, fun e he => by
    obtain rfl := mem_singleton.mp he
    exact ⟨1, rfl⟩⟩

/-- `s0:c0-s0:c0`. -/
theorem mlsFromString_grammar_iff_range :
    let str := ['s', '0', ':', 'c', '0', '-', 's', '0', ':', 'c', '0']
    (∃ r, mlsFromString oneCategory false str = some r) ↔
      RangeForm oneCategory.mlsDb.toMlsSymbols str :=
  ((mlsFromString_grammar_iff oneCategory _).2 oneCategory_plain).mpr
    (oneCategory_plain.not_tailForm ⟨_, oneCategory_level, .inr ⟨_, oneCategory_level, rfl⟩⟩)

/-- `s0-s0:c0-x` is accepted. -/
theorem mlsFromString_accepts_tail :
    (∃ r, mlsFromString oneCategory false ['s', '0', '-', 's', '0', ':', 'c', '0', '-', 'x'] =
      some r) ∧ ¬ RangeForm oneCategory.mlsDb.toMlsSymbols
        ['s', '0', '-', 's', '0', ':', 'c', '0', '-', 'x'] := by
  refine ⟨⟨{ low := { sens := 1 }, high := { sens := 1, cat := Ebitmap.set ∅ 0 (by decide) } }, by
    decide⟩, ?_⟩
  intro h
  refine oneCategory_plain.not_tailForm h ?_
  have hlow : LevelForm.Defined oneCategory.mlsDb.toMlsSymbols { sens := ['s', '0'] } :=
    ⟨⟨_, rfl⟩, by simp⟩
  exact ⟨_, oneCategory_plain.levelForm hlow fun c hc => lowStop_iff.mp hc, _,
    oneCategory_plain.levelForm oneCategory_level fun c hc => .inl (highStop_iff.mp hc), by simp,
    ['x'], rfl⟩

end SELinux.Sepol
