import Mathlib.Data.List.TakeWhile
import SetSequent.Token

/-!
# Tokens of a text that is put together

A text that is put together from parts has the tokens of its parts, unless two words run into each
other where the parts meet.

* `isWordChar_of_isBlank` — no blank belongs to a word.
* `ofText_append_of_starts`, `ofText_append_of_ends` — the parts meet at a blank or a symbol.
* `ofText_word` — a word is its own token.
* `word_or_symbol_of_mem_ofText` — a token is a word or a single symbol.
* `Token.isIdentifier` — the names that a text can spell.
-/

namespace SetSequent.Token

/-! ## Characters -/

/-- The code points of the blanks. -/
def blanks : List Nat :=
  [9, 10, 11, 12, 13, 28, 29, 30, 31, 32, 0x85, 0xA0, 0x1680, 0x2000, 0x2001, 0x2002, 0x2003, 0x2004,
   0x2005, 0x2006, 0x2007, 0x2008, 0x2009, 0x200A, 0x2028, 0x2029, 0x202F, 0x205F, 0x3000]

theorem mem_blanks_of_isBlank {c : Char} (h : Text.isBlank c = true) : c.toNat ∈ blanks := by
  simp only [Text.isBlank, Bool.or_eq_true, Bool.and_eq_true, decide_eq_true_eq, beq_iff_eq] at h
  simp only [blanks, List.mem_cons, List.not_mem_nil, or_false]
  omega

/-- No blank belongs to a word. -/
theorem isWordChar_of_isBlank {c : Char} (h : Text.isBlank c = true) : isWordChar c = false := by
  have checked : ∀ n ∈ blanks, isWordChar (Char.ofNat n) = false := by decide +kernel
  have := checked c.toNat (mem_blanks_of_isBlank h)
  rwa [Char.ofNat_toNat] at this

theorem isBlank_of_isWordChar {c : Char} (h : isWordChar c = true) : Text.isBlank c = false := by
  refine Bool.eq_false_iff.2 fun hb => ?_
  rw [isWordChar_of_isBlank hb] at h
  cases h

/-! ## Scanning -/

theorem scan_of_isBlank {c : Char} (h : Text.isBlank c = true) (cs : List Char) :
    scan (c :: cs) = scan cs := by
  rw [scan, if_pos h]

theorem scan_of_isWordChar {c : Char} (h : isWordChar c = true) (cs : List Char) :
    scan (c :: cs) = (c :: cs.takeWhile isWordChar) :: scan (cs.dropWhile isWordChar) := by
  rw [scan, if_neg (by simp [isBlank_of_isWordChar h]), if_pos h]

theorem scan_of_symbol {c : Char} (hb : Text.isBlank c = false) (hw : isWordChar c = false)
    (cs : List Char) : scan (c :: cs) = [c] :: scan cs := by
  rw [scan, if_neg (by simp [hb]), if_neg (by simp [hw])]

/-- No word runs from the end of `a` into the start of `b`. -/
def Apart (a b : List Char) : Prop :=
  ∀ c ∈ a.getLast?, isWordChar c = true → ∀ d ∈ b.head?, isWordChar d = false

theorem Apart.of_suffix {a a' b : List Char} (h : Apart a b) (hs : a' <:+ a) : Apart a' b := by
  obtain ⟨p, rfl⟩ := hs
  intro c hc
  refine h c ?_
  rw [List.getLast?_append, Option.mem_def.1 hc]
  rfl

/-- A word of `cs` ends there if `b` does not go on with it. -/
theorem wordEnd_append {cs b : List Char}
    (h : cs.all isWordChar = true → ∀ d ∈ b.head?, isWordChar d = false) :
    (cs ++ b).takeWhile isWordChar = cs.takeWhile isWordChar ∧
      (cs ++ b).dropWhile isWordChar = cs.dropWhile isWordChar ++ b := by
  induction cs with
  | nil =>
    cases b with
    | nil => exact ⟨rfl, rfl⟩
    | cons d b => simp [h rfl d rfl]
  | cons c cs ih =>
    cases hc : isWordChar c with
    | true =>
      have ih := ih fun hs => h (by rw [List.all_cons, hc, hs]; rfl)
      simp [hc, ih]
    | false => simp [hc]

theorem Apart.head {c : Char} {cs b : List Char} (h : Apart (c :: cs) b) (hc : isWordChar c = true)
    (hs : cs.all isWordChar = true) : ∀ d ∈ b.head?, isWordChar d = false := by
  have all : ∀ x ∈ c :: cs, isWordChar x = true :=
    List.forall_mem_cons.2 ⟨hc, List.all_eq_true.1 hs⟩
  have last := List.getLast?_eq_some_getLast (List.cons_ne_nil c cs)
  exact h _ last (all _ (List.getLast_mem _))

theorem scan_append {a b : List Char} (h : Apart a b) : scan (a ++ b) = scan a ++ scan b := by
  induction a using scan.induct with
  | case1 => rw [scan]; rfl
  | case2 c cs hb ih =>
    rw [List.cons_append, scan_of_isBlank hb, scan_of_isBlank hb,
      ih (h.of_suffix (List.suffix_cons ..))]
  | case3 c cs hb hw ih =>
    -- If the word reaches the end of `a`, then `b` does not go on with it.
    obtain ⟨ht, hd⟩ := wordEnd_append (h.head hw)
    have rest : List.dropWhile isWordChar cs <:+ c :: cs :=
      (List.dropWhile_suffix _).trans (List.suffix_cons ..)
    rw [List.cons_append, scan_of_isWordChar hw, scan_of_isWordChar hw, ht, hd,
      ih (h.of_suffix rest), List.cons_append]
  | case4 c cs hb hw ih =>
    have hb : Text.isBlank c = false := by simpa using hb
    have hw : isWordChar c = false := by simpa using hw
    rw [List.cons_append, scan_of_symbol hb hw, scan_of_symbol hb hw,
      ih (h.of_suffix (List.suffix_cons ..)), List.cons_append]

/-- A token is a word or a single symbol. -/
theorem word_or_symbol_of_mem_scan {cs w : List Char} (h : w ∈ scan cs) :
    w ≠ [] ∧ w.all isWordChar = true ∨ ∃ c, isWordChar c = false ∧ w = [c] := by
  induction cs using scan.induct with
  | case1 => rw [scan] at h; cases h
  | case2 c cs hb ih => exact ih (scan_of_isBlank hb cs ▸ h)
  | case3 c cs hb hw ih =>
    rw [scan_of_isWordChar hw] at h
    rcases List.mem_cons.1 h with rfl | h
    · refine .inl ⟨List.cons_ne_nil _ _, ?_⟩
      rw [List.all_cons, hw, List.all_takeWhile]
      rfl
    · exact ih h
  | case4 c cs hb hw ih =>
    have hb : Text.isBlank c = false := by simpa using hb
    have hw : isWordChar c = false := by simpa using hw
    rw [scan_of_symbol hb hw] at h
    rcases List.mem_cons.1 h with rfl | h
    · exact .inr ⟨c, hw, rfl⟩
    · exact ih h

theorem scan_word {w : List Char} (hne : w ≠ []) (h : w.all isWordChar = true) : scan w = [w] := by
  cases w with
  | nil => exact absurd rfl hne
  | cons c cs =>
    rw [List.all_cons, Bool.and_eq_true, List.all_eq_true] at h
    rw [scan_of_isWordChar h.1, List.takeWhile_eq_self_iff.2 h.2, List.dropWhile_eq_nil_iff.2 h.2, scan]

/-! ## Texts -/

/-- The text starts with a blank or a symbol. -/
def startsApart (s : String) : Bool := s.toList.head?.any (!isWordChar ·)

/-- The text ends with a blank or a symbol. -/
def endsApart (s : String) : Bool := s.toList.getLast?.any (!isWordChar ·)

theorem endsApart_append {s t : String} (h : endsApart t = true) : endsApart (s ++ t) = true := by
  unfold endsApart at h ⊢
  rw [String.toList_append, List.getLast?_append]
  cases hl : t.toList.getLast? with
  | none => rw [hl] at h; cases h
  | some c => rwa [hl] at h

theorem ofText_append {s t : String} (h : Apart s.toList t.toList) :
    ofText (s ++ t) = ofText s ++ ofText t := by
  rw [ofText, String.toList_append, scan_append h, List.map_append]
  rfl

theorem ofText_append_of_starts {s t : String} (h : startsApart t = true) :
    ofText (s ++ t) = ofText s ++ ofText t := by
  refine ofText_append fun _ _ _ d hd => ?_
  rw [startsApart, Option.mem_def.1 hd] at h
  simpa using h

theorem ofText_append_of_ends {s t : String} (h : endsApart s = true) :
    ofText (s ++ t) = ofText s ++ ofText t := by
  refine ofText_append fun c hc hw => ?_
  rw [endsApart, Option.mem_def.1 hc] at h
  rw [Option.any_some, hw] at h
  cases h

/-- A word is its own token. -/
theorem ofText_word {s : String} (hne : s.toList ≠ []) (h : s.toList.all isWordChar = true) :
    ofText s = [s] := by
  rw [ofText, scan_word hne h, List.map_singleton, String.ofList_toList]

theorem word_or_symbol_of_mem_ofText {s : String} {t : Token} (h : t ∈ ofText s) :
    t.toList ≠ [] ∧ t.toList.all isWordChar = true ∨ ∃ c, isWordChar c = false ∧ t.toList = [c] := by
  obtain ⟨w, hw, rfl⟩ := List.mem_map.1 h
  rw [String.toList_ofList]
  exact word_or_symbol_of_mem_scan hw

/-! ## Names -/

/-- A name that a text can spell: a run of letters, numerals and underscores that starts with no
numeral and is no keyword. -/
def isIdentifier (t : Token) : Bool := t.isName && t.toList.all isWordChar

theorem exists_head_of_isName {t : Token} (h : t.isName = true) :
    ∃ c cs, t.toList = c :: cs ∧ isWordChar c = true := by
  unfold isName at h
  split at h
  · cases h
  · rename_i c cs hc
    rw [Bool.and_eq_true, Bool.or_eq_true] at h
    refine ⟨c, cs, hc, ?_⟩
    rcases h.1 with h | h <;> simp [isWordChar, h]

theorem ofText_of_isIdentifier {t : Token} (h : t.isIdentifier = true) : ofText t = [t] := by
  rw [isIdentifier, Bool.and_eq_true] at h
  obtain ⟨c, cs, hc, _⟩ := exists_head_of_isName h.1
  exact ofText_word (by rw [hc]; exact List.cons_ne_nil _ _) h.2

/-- A name among the tokens of a text is one that a text can spell. -/
theorem isIdentifier_of_mem_ofText {s : String} {t : Token} (h : t ∈ ofText s)
    (hn : t.isName = true) : t.isIdentifier = true := by
  rcases word_or_symbol_of_mem_ofText h with ⟨_, hw⟩ | ⟨d, hd, ht⟩
  · rw [isIdentifier, hn, hw]
    rfl
  · -- A symbol does not start like a word, so it is no name.
    obtain ⟨c, cs, hc, hw⟩ := exists_head_of_isName hn
    rw [ht] at hc
    cases hc
    rw [hw] at hd
    cases hd

end SetSequent.Token
