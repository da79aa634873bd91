import SetSequent.Proofs.Scanning

/-!
# Scanning loses nothing but blanks

* `scan_induction` — a text is empty or starts with a blank, a whole word or a symbol.
* `flatten_scan` — the tokens put together are the text without its blanks.
* `Delimited` — what makes a piece of a text one of its tokens, `exists_delimited` — each token is such a
  piece, and the tokens before and after it are those of the text on either side.
* `scan_intercalate` — tokens with a blank between neighbours are scanned as they are.
* `ofText_lossless` — the three facts for a text.
-/

namespace SetSequent.Token

/-! ## Texts piece by piece -/

/-- A whole word at the start of a text is its first token. -/
theorem scan_word_append {w rest : List Char} (hne : w ≠ []) (hw : w.all isWordChar = true)
    (hr : ∀ d ∈ rest.head?, isWordChar d = false) : scan (w ++ rest) = w :: scan rest := by
  have apart : Apart w rest := fun _ _ _ => hr
  rw [scan_append apart, scan_word hne hw]
  rfl

/-- What holds of the empty text, and of a text that starts with a blank, a whole word or a symbol if it
holds of what follows, holds of every text. -/
theorem scan_induction {R : List Char → Prop} (nil : R [])
    (blank : ∀ c cs, Text.isBlank c = true → R cs → R (c :: cs))
    (word : ∀ w rest, w ≠ [] → w.all isWordChar = true →
      (∀ d ∈ rest.head?, isWordChar d = false) → R rest → R (w ++ rest))
    (symbol : ∀ c cs, Text.isBlank c = false → isWordChar c = false → R cs → R (c :: cs))
    (cs : List Char) : R cs := by
  induction cs using scan.induct with
  | case1 => exact nil
  | case2 c cs hb ih => exact blank c cs hb ih
  | case3 c cs hb hw ih =>
    have whole : (c :: cs.takeWhile isWordChar).all isWordChar = true := by
      rw [List.all_cons, hw, List.all_takeWhile]
      rfl
    have stops : ∀ d ∈ (cs.dropWhile isWordChar).head?, isWordChar d = false := by
      intro d hd
      have stop := List.head?_dropWhile_not isWordChar cs
      rwa [Option.mem_def.1 hd] at stop
    have := word _ _ (List.cons_ne_nil _ _) whole stops ih
    rwa [List.cons_append, List.takeWhile_append_dropWhile] at this
  | case4 c cs hb hw ih => exact symbol c cs (by simpa using hb) (by simpa using hw) ih

/-- The tokens put together are the text without its blanks. -/
theorem flatten_scan (cs : List Char) : (scan cs).flatten = cs.filter (!Text.isBlank ·) := by
  induction cs using scan_induction with
  | nil => rw [scan]; rfl
  | blank c cs hb ih => rw [scan_of_isBlank hb, ih, List.filter_cons_of_neg (by simp [hb])]
  | word w rest hne hw hr ih =>
    have kept : w.filter (!Text.isBlank ·) = w :=
      List.filter_eq_self.2 fun c hc => by simp [isBlank_of_isWordChar (List.all_eq_true.1 hw c hc)]
    rw [scan_word_append hne hw hr, List.flatten_cons, ih, List.filter_append, kept]
  | symbol c cs hb hw ih =>
    rw [scan_of_symbol hb hw, List.flatten_cons, ih, List.filter_cons_of_pos (by simp [hb])]
    rfl

/-! ## Tokens in their places -/

/-- The piece `w` between `before` and `after` is a word that goes on neither way, or a character that
is neither blank nor part of a word. -/
inductive Delimited (before w after : List Char) : Prop where
  | word (nonempty : w ≠ []) (run : w.all isWordChar = true)
      (starts : ∀ c ∈ before.getLast?, isWordChar c = false)
      (ends : ∀ c ∈ after.head?, isWordChar c = false)
  | symbol (c : Char) (single : w = [c]) (visible : Text.isBlank c = false)
      (other : isWordChar c = false)

/-- A piece stays delimited with more text in front, if no word runs from there into the rest. -/
theorem Delimited.prepend {front before w after : List Char} (h : Delimited before w after)
    (apart : Apart front (before ++ w ++ after)) : Delimited (front ++ before) w after := by
  cases h with
  | symbol c single visible other => exact .symbol c single visible other
  | word nonempty run starts ends =>
    refine .word nonempty run (fun c hc => ?_) ends
    rw [List.getLast?_append, Option.mem_def, Option.or_eq_some_iff] at hc
    rcases hc with hc | ⟨hb, hc⟩
    · exact starts c hc
    · -- Nothing stands before the word, so it would go on from the text in front.
      have hb : before = [] := List.getLast?_eq_none_iff.1 hb
      obtain ⟨d, ds, rfl⟩ := List.exists_cons_of_ne_nil nonempty
      have hd : isWordChar d = true := List.all_eq_true.1 run d (.head _)
      refine Bool.eq_false_iff.2 fun hw => ?_
      rw [hb] at apart
      rw [apart c hc hw d rfl] at hd
      cases hd

/-- **Each token stands in its place**: it is a delimited piece of the text, and what stands before and
after it has the tokens before and after it. -/
theorem exists_delimited {cs w : List Char} {left right : List (List Char)}
    (h : scan cs = left ++ w :: right) :
    ∃ before after, cs = before ++ w ++ after ∧ scan before = left ∧ scan after = right ∧
      Delimited before w after := by
  have skip {front rest : List Char} {left : List (List Char)} (apart : Apart front rest)
      (ih : ∃ before after, rest = before ++ w ++ after ∧ scan before = left ∧ scan after = right ∧
        Delimited before w after) :
      ∃ before after, front ++ rest = before ++ w ++ after ∧ scan before = scan front ++ left ∧
        scan after = right ∧ Delimited before w after := by
    obtain ⟨before, after, rfl, hl, hr, place⟩ := ih
    have meets : Apart front before := by
      intro c hc hw d hd
      refine apart c hc hw d ?_
      rw [List.append_assoc, List.head?_append, Option.mem_def.1 hd]
      rfl
    refine ⟨front ++ before, after, by simp only [List.append_assoc], ?_, hr, place.prepend apart⟩
    rw [scan_append meets, hl]
  have alone {c : Char} (hc : isWordChar c = false) (rest : List Char) : Apart [c] rest := by
    intro d hd hw
    obtain rfl : c = d := Option.some.inj hd
    rw [hc] at hw
    cases hw
  induction cs using scan_induction generalizing left with
  | nil => rw [scan] at h; cases left <;> cases h
  | blank c cs hb ih =>
    have none : scan [c] = [] := by rw [scan_of_isBlank hb, scan]
    rw [scan_of_isBlank hb] at h
    have := skip (alone (isWordChar_of_isBlank hb) cs) (ih h)
    rwa [none] at this
  | word v rest hne hv hr ih =>
    rw [scan_word_append hne hv hr] at h
    rcases List.cons_eq_append_iff.1 h with ⟨rfl, he⟩ | ⟨left', rfl, hs⟩
    · cases he
      refine ⟨[], rest, rfl, by rw [scan], rfl, .word hne hv (fun c hc => by cases hc) hr⟩
    · have apart : Apart v rest := fun _ _ _ => hr
      have := skip apart (ih hs)
      rwa [scan_word hne hv] at this
  | symbol c cs hb hw ih =>
    have single : scan [c] = [[c]] := by rw [scan_of_symbol hb hw, scan]
    rw [scan_of_symbol hb hw] at h
    rcases List.cons_eq_append_iff.1 h with ⟨rfl, he⟩ | ⟨left', rfl, hs⟩
    · cases he
      exact ⟨[], cs, rfl, by rw [scan], rfl, .symbol c rfl hb hw⟩
    · have := skip (alone hw cs) (ih hs)
      rwa [single] at this

/-! ## Tokens with blanks between them -/

/-- A token is its own token. -/
theorem Delimited.scan_self {before w after : List Char} (h : Delimited before w after) :
    scan w = [w] := by
  cases h with
  | word nonempty run => exact scan_word nonempty run
  | symbol c single visible other => rw [single, scan_of_symbol visible other, scan]

theorem scan_self_of_mem_scan {cs w : List Char} (h : w ∈ scan cs) : scan w = [w] := by
  obtain ⟨left, right, h⟩ := List.append_of_mem h
  obtain ⟨before, after, -, -, -, place⟩ := exists_delimited h
  exact place.scan_self

/-- Tokens are scanned as they are, with a blank between neighbours. -/
theorem scan_intercalate {ts : List (List Char)} (h : ∀ w ∈ ts, scan w = [w]) :
    scan ([' '].intercalate ts) = ts := by
  induction ts with
  | nil => exact scan.eq_1
  | cons w ts ih =>
    obtain ⟨hw, hts⟩ := List.forall_mem_cons.1 h
    cases ts with
    | nil => rw [List.intercalate_singleton, hw]
    | cons v ts =>
      have apart : Apart w ([' '] ++ [' '].intercalate (v :: ts)) := by
        intro _ _ _ d hd
        cases hd
        decide
      have blank : scan ([' '] ++ [' '].intercalate (v :: ts)) = scan ([' '].intercalate (v :: ts)) :=
        scan_of_isBlank (by decide) _
      rw [List.intercalate_cons_cons, List.append_assoc, scan_append apart, hw, blank, ih hts]
      rfl

/-- **Scanning is lossless and does not depend on spacing.** The tokens of a text put together are the
text without its blanks. Each token is a longest run of letters, numerals and underscores, or one other
character that is no blank, at its place in the text: the tokens before and after it are those of the
text on either side. And the tokens written with one blank between neighbours have the same tokens. -/
theorem ofText_lossless (s : String) :
    String.join (ofText s) = String.ofList (s.toList.filter (!Text.isBlank ·)) ∧
    (∀ left token right, ofText s = left ++ token :: right →
      ∃ before after, s = before ++ token ++ after ∧ ofText before = left ∧ ofText after = right ∧
        Delimited before.toList token.toList after.toList) ∧
    ofText (" ".intercalate (ofText s)) = ofText s := by
  have chars : (ofText s).map String.toList = scan s.toList := by
    simp [ofText]
  refine ⟨?joined, fun left token right h => ?placed, ?spaced⟩
  case joined =>
    rw [← flatten_scan, ← chars, ← List.flatMap_def, ← String.toList_join, String.ofList_toList]
  case placed =>
    rw [h, List.map_append, List.map_cons] at chars
    obtain ⟨before, after, hs, hl, hr, place⟩ := exists_delimited chars.symm
    have texts (ts : List Token) : (ts.map String.toList).map String.ofList = ts := by
      simp
    refine ⟨.ofList before, .ofList after, ?_, ?_, ?_, ?_⟩
    · apply String.toList_injective
      rw [hs]
      simp only [String.toList_append, String.toList_ofList]
    · rw [ofText, String.toList_ofList, hl, texts]
    · rw [ofText, String.toList_ofList, hr, texts]
    · rwa [String.toList_ofList, String.toList_ofList]
  case spaced =>
    have again : scan (" ".intercalate (ofText s)).toList = scan s.toList := by
      rw [String.toList_intercalate, chars]
      exact scan_intercalate fun _ => scan_self_of_mem_scan
    rw [ofText, again, ofText]

end SetSequent.Token
