import Mathlib.Computability.Language

/-!
# Regular expressions as they are written

A pattern is kept with its text: alternatives of quantified atoms, over bytes. Literals, escapes,
quantifiers and alternation have the meaning that PCRE gives them. Dots, bracket expressions and
groups come with a language of their own, and so do the escapes of letters and digits.

The pattern is compiled between `^` and `$`, which are part of its first and of its last
alternative. -/

namespace Lib.Regex

def slash : BitVec 8 := 0x2f
def backslash : BitVec 8 := 0x5c
def bar : BitVec 8 := 0x7c
def newline : BitVec 8 := 0x0a

/-- The signs `. ^ $ [ (` and the opening brace, with which an atom may begin. -/
def opening : List (BitVec 8) := [0x2e, 0x5e, 0x24, 0x5b, 0x28, 0x7b]

/-- The signs `? * +` and the opening brace, with which a quantifier begins. -/
def quantifying : List (BitVec 8) := [0x3f, 0x2a, 0x2b, 0x7b]

/-- The signs that do not stand for themselves. -/
def special : List (BitVec 8) := backslash :: bar :: 0x29 :: (opening ++ quantifying)

def isAlnum (c : BitVec 8) : Bool :=
  (0x30 ≤ c && c ≤ 0x39) || (0x41 ≤ c && c ≤ 0x5a) || (0x61 ≤ c && c ≤ 0x7a)

inductive Atom where
  | lit (c : BitVec 8) (plain : c ∉ special)
  /-- A backslash and a sign, which then stands for itself. -/
  | esc (c : BitVec 8) (sign : isAlnum c = false)
  /-- An escape that is longer than what it matches, such as `\d` or `\x2d`. -/
  | cls (name : List (BitVec 8)) (words : Language (BitVec 8)) (name_slash : slash ∉ name)
      (words_le : ∀ w ∈ words, w.length ≤ name.length)
  | other (text : List (BitVec 8)) (words : Language (BitVec 8))
      (opens : ∃ c ∈ text.head?, c ∈ opening)

namespace Atom

def text : Atom → List (BitVec 8)
  | lit c _ => [c]
  | esc c _ => [backslash, c]
  | cls name _ _ _ => backslash :: name
  | other text _ _ => text

def words : Atom → Language (BitVec 8)
  | lit c _ => {[c]}
  | esc c _ => {[c]}
  | cls _ words _ _ => words
  | other _ words _ => words

end Atom

inductive Repetition where
  | opt | star | plus
  | exactly (n : Nat)
  | atLeast (n : Nat)
  | between (m n : Nat)
  deriving DecidableEq

def digits (n : Nat) : List (BitVec 8) := (Nat.toDigits 10 n).map fun c => .ofNat 8 c.toNat

namespace Repetition

def text : Repetition → List (BitVec 8)
  | opt => [0x3f]
  | star => [0x2a]
  | plus => [0x2b]
  | exactly n => 0x7b :: digits n ++ [0x7d]
  | atLeast n => 0x7b :: digits n ++ [0x2c, 0x7d]
  | between m n => 0x7b :: digits m ++ 0x2c :: digits n ++ [0x7d]

/-- How often the atom may be taken. -/
def Allows : Repetition → Nat → Prop
  | opt, k => k ≤ 1
  | star, _ => True
  | plus, k => 1 ≤ k
  | exactly n, k => k = n
  | atLeast n, k => n ≤ k
  | between m n, k => m ≤ k ∧ k ≤ n

end Repetition

inductive Quantifier where
  | once
  /-- With a question mark behind it, a repetition prefers to be short. -/
  | times (r : Repetition) (lazy : Bool)
  deriving DecidableEq

namespace Quantifier

def text : Quantifier → List (BitVec 8)
  | once => []
  | times r false => r.text
  | times r true => r.text ++ [0x3f]

def Allows : Quantifier → Nat → Prop
  | once, k => k = 1
  | times r _, k => r.Allows k

theorem once_or_text_cons (q : Quantifier) :
    q = once ∨ ∃ c ∈ quantifying, ∃ rest, q.text = c :: rest := by
  cases q with
  | once => exact .inl rfl
  | times r lazy =>
    right
    cases r <;> cases lazy <;>
      exact ⟨_, by simp [quantifying], _, rfl⟩

end Quantifier

structure Item where
  atom : Atom
  quant : Quantifier

namespace Item

def text (x : Item) : List (BitVec 8) := x.atom.text ++ x.quant.text

def words (x : Item) : Language (BitVec 8) :=
  {w | ∃ k, x.quant.Allows k ∧ w ∈ x.atom.words ^ k}

theorem mem_words_once (a : Atom) (w : List (BitVec 8)) : w ∈ words ⟨a, .once⟩ ↔ w ∈ a.words := by
  constructor
  · rintro ⟨k, rfl, hw⟩
    rwa [pow_one] at hw
  · intro hw
    exact ⟨1, rfl, by rwa [pow_one]⟩

end Item

abbrev Branch := List Item

namespace Branch

def text (b : Branch) : List (BitVec 8) := b.flatMap Item.text

def words (b : Branch) : Language (BitVec 8) := (b.map Item.words).prod

@[simp] theorem text_nil : text [] = [] := rfl

@[simp] theorem text_cons (x : Item) (b : Branch) : text (x :: b) = x.text ++ text b := rfl

@[simp] theorem words_cons (x : Item) (b : Branch) : words (x :: b) = x.words * words b :=
  List.prod_cons

theorem words_append (b b' : Branch) : words (b ++ b') = words b * words b' := by
  simp [words]

end Branch

structure Pattern where
  first : Branch
  others : List Branch

namespace Pattern

def alternatives (p : Pattern) : List Branch := p.first :: p.others

def text (p : Pattern) : List (BitVec 8) := p.first.text ++ p.others.flatMap (bar :: ·.text)

/-- The key contains a word that the `i`-th alternative finds. The first alternative finds it at
the start of the key only, the last one at its end or before a newline there. -/
def Finds (p : Pattern) (i : Nat) (words : Language (BitVec 8)) (key : List (BitVec 8)) : Prop :=
  ∃ before word after, key = before ++ word ++ after ∧ word ∈ words ∧ (i = 0 → before = []) ∧
    (i + 1 = p.alternatives.length → after = [] ∨ after = [newline])

/-- The key matches the compiled pattern by its `i`-th alternative. -/
def MatchesBy (p : Pattern) (i : Nat) (key : List (BitVec 8)) : Prop :=
  ∃ b ∈ p.alternatives[i]?, p.Finds i b.words key

def Matches (p : Pattern) (key : List (BitVec 8)) : Prop := ∃ i, p.MatchesBy i key

theorem matchesBy_zero (p : Pattern) (key : List (BitVec 8)) :
    p.MatchesBy 0 key ↔ p.Finds 0 p.first.words key := by
  simp [MatchesBy, alternatives]

variable {key : List (BitVec 8)} {p : Pattern} {i : Nat} {l : Language (BitVec 8)}

theorem Finds.mono {l' : Language (BitVec 8)}
    (hl : ∀ w ∈ l, w ∈ l') (h : p.Finds i l key) : p.Finds i l' key := by
  obtain ⟨before, word, after, hkey, hword, hends⟩ := h
  exact ⟨before, word, after, hkey, hl word hword, hends⟩

theorem Finds.cons (hi : i ≠ 0) (c : BitVec 8) (h : p.Finds i l key) : p.Finds i l (c :: key) := by
  obtain ⟨before, word, after, rfl, hword, -, hend⟩ := h
  exact ⟨c :: before, word, after, rfl, hword, fun h0 => absurd h0 hi, hend⟩

/-- Another alternative than the first also matches behind a further character. -/
theorem MatchesBy.cons (hi : i ≠ 0)
    (c : BitVec 8) (h : p.MatchesBy i key) : p.MatchesBy i (c :: key) := by
  obtain ⟨b, hb, hfinds⟩ := h
  exact ⟨b, hb, hfinds.cons hi c⟩

theorem text_eq (p : Pattern) : p.text = p.first.text ∨
    ∃ rest, p.text = p.first.text ++ bar :: rest := by
  cases h : p.others with
  | nil => simp [text, h]
  | cons b rest => simp [text, h]

end Pattern

end Lib.Regex
