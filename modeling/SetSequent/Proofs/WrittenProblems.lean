import SetSequent.Problem
import SetSequent.Proofs.RoundTrip

/-!
# Written sequents read back

A sequent is written as lines, and its lines are those of a problem. What is written between the line
feeds has no character that ends a line, starts a comment or is trimmed, and a label ends at its colon.

* `Text.lines_intercalate` — lines without line ends are found again.
* `Formula.isEntry_text` — a written formula goes on one line and does not end in a blank.
* `Problem.splitLabel_append`, `Problem.content_of_isEntry` — a label is cut off where it was put, and
  nothing is trimmed.
* `Problem.readLines_hypotheses` — the lines of hypotheses are read as these hypotheses.
* `Problem.Entries.IsWritable.readLines` — whatever is read can be written.
* `Problem.read_round_trip` — a sequent is read back from its lines exactly if it is one that a problem
  can state, and this holds of everything that is read.
-/

namespace SetSequent

/-! ## Lines -/

namespace Text

theorem isBlank_of_endsLine {c : Char} (h : endsLine c = true) : isBlank c = true := by
  simp only [endsLine, Bool.or_eq_true, Bool.and_eq_true, decide_eq_true_eq, beq_iff_eq] at h
  simp only [isBlank, Bool.or_eq_true, Bool.and_eq_true, decide_eq_true_eq, beq_iff_eq]
  omega

theorem lines_go_cons {c : Char} (h : endsLine c = false) (current rest : List Char) :
    lines.go current (c :: rest) = lines.go (c :: current) rest := by
  rw [lines.go]
  · simp [h]
  · rintro _ rfl
    cases h

theorem lines_go_append {line : List Char} (h : ∀ c ∈ line, endsLine c = false)
    (current rest : List Char) :
    lines.go current (line ++ rest) = lines.go (line.reverse ++ current) rest := by
  induction line generalizing current with
  | nil => rfl
  | cons c line ih =>
    obtain ⟨hc, hl⟩ := List.forall_mem_cons.1 h
    rw [List.cons_append, lines_go_cons hc, ih hl, List.reverse_cons, List.append_assoc]
    rfl

/-- Lines that are not empty and hold no line end are found again between line feeds. -/
theorem lines_intercalate {ls : List (List Char)} (hne : ∀ l ∈ ls, l ≠ [])
    (h : ∀ l ∈ ls, ∀ c ∈ l, endsLine c = false) : lines (['\n'].intercalate ls) = ls := by
  induction ls with
  | nil => rfl
  | cons l ls ih =>
    obtain ⟨hl, hls⟩ := List.forall_mem_cons.1 h
    obtain ⟨ne, nes⟩ := List.forall_mem_cons.1 hne
    cases ls with
    | nil =>
      have last := lines_go_append hl [] []
      rw [List.append_nil, List.append_nil] at last
      rw [List.intercalate_singleton, lines, last, lines.go, List.reverse_reverse,
        if_neg (by simpa using ne)]
    | cons l' ls =>
      rw [List.intercalate_cons_cons, List.append_assoc, lines, lines_go_append hl, List.append_nil]
      change lines.go l.reverse ('\n' :: ['\n'].intercalate (l' :: ls)) = l :: l' :: ls
      have rest : lines.go [] (['\n'].intercalate (l' :: ls)) = l' :: ls := ih nes hls
      rw [lines.go, if_pos (by decide), List.reverse_reverse, rest]
      rintro _ ⟨⟩

end Text

/-! ## Characters -/

namespace Token

/-- The characters of written sequents, the line feeds between the lines apart. -/
def isWrittenChar (c : Char) : Bool := isWordChar c || [' ', '(', ')', ',', '.', '=', ':'].contains c

theorem endsLine_of_isWrittenChar {c : Char} (h : isWrittenChar c = true) :
    Text.endsLine c = false := by
  have symbols : [' ', '(', ')', ',', '.', '=', ':'].all (!Text.endsLine ·) = true := by decide
  rw [isWrittenChar, Bool.or_eq_true, List.contains_iff_mem] at h
  rcases h with h | h
  · refine Bool.eq_false_iff.2 fun he => ?_
    have := isBlank_of_isWordChar h
    rw [Text.isBlank_of_endsLine he] at this
    cases this
  · simpa using List.all_eq_true.1 symbols c h

theorem ne_comment_of_isWrittenChar {c : Char} (h : isWrittenChar c = true) : c ≠ '#' := by
  rintro rfl
  revert h
  decide

/-- All characters of the text are characters of written sequents. -/
def IsWritten (s : String) : Prop := ∀ c ∈ s.toList, isWrittenChar c = true

instance (s : String) : Decidable (IsWritten s) :=
  decidable_of_iff (s.toList.all isWrittenChar = true) List.all_eq_true

@[simp] theorem isWritten_append {s t : String} : IsWritten (s ++ t) ↔ IsWritten s ∧ IsWritten t := by
  simp only [IsWritten, String.toList_append, List.forall_mem_append]

/-- A text that goes on one line and does not end in a blank. -/
structure IsEntry (s : String) : Prop where
  written : IsWritten s
  last : ∃ c ∈ s.toList.getLast?, Text.isBlank c = false

theorem IsEntry.append {s t : String} (hs : IsWritten s) (ht : IsEntry t) : IsEntry (s ++ t) := by
  obtain ⟨c, hc, hb⟩ := ht.last
  refine ⟨isWritten_append.2 ⟨hs, ht.written⟩, c, ?_, hb⟩
  rw [String.toList_append, List.getLast?_append, Option.mem_def.1 hc]
  rfl

theorem isEntry_closing : IsEntry ")" := ⟨by decide, ')', rfl, by decide⟩

theorem isEntry_of_isIdentifier {t : Token} (h : t.isIdentifier = true) : IsEntry t := by
  rw [isIdentifier, Bool.and_eq_true, List.all_eq_true] at h
  obtain ⟨c, cs, hc, _⟩ := exists_head_of_isName h.1
  have ne : t.toList ≠ [] := by rw [hc]; exact List.cons_ne_nil _ _
  refine ⟨fun c hc => ?_, _, List.getLast?_eq_some_getLast ne, ?_⟩
  · rw [isWrittenChar, h.2 c hc]
    rfl
  · exact isBlank_of_isWordChar (h.2 _ (List.getLast_mem ne))

theorem isEntry_of_mem {word : Token} (h : word ∈ ["empty", "true", "false"]) : IsEntry word := by
  simp only [List.mem_cons, List.not_mem_nil, or_false] at h
  rcases h with rfl | rfl | rfl
  · exact isEntry_of_isIdentifier (by decide)
  · exact ⟨by decide, 'e', rfl, by decide⟩
  · exact ⟨by decide, 'e', rfl, by decide⟩

/-- A head with arguments in parentheses. -/
theorem isEntry_applied {f : Token} {s : String} (hf : f.isIdentifier = true) (hs : IsWritten s) :
    IsEntry (f ++ "(" ++ s ++ ")") := by
  refine isEntry_closing.append ?_
  simp only [isWritten_append]
  exact ⟨⟨(isEntry_of_isIdentifier hf).written, by decide⟩, hs⟩

end Token

open Token (IsWritten IsEntry)

theorem Term.isWritten_listText {ts : List Term} (h : ∀ t ∈ ts, IsEntry t.text) :
    IsWritten (listText ts) := by
  induction ts with
  | nil => exact fun _ hc => (List.not_mem_nil hc).elim
  | cons t ts ih =>
    obtain ⟨ht, hts⟩ := List.forall_mem_cons.1 h
    cases ts with
    | nil => exact ht.written
    | cons u us =>
      change IsWritten (t.text ++ ", " ++ listText (u :: us))
      simp only [Token.isWritten_append]
      exact ⟨⟨ht.written, by decide⟩, ih hts⟩

theorem Term.isEntry_text {t : Term} (h : t.wellNamed Token.isIdentifier = true) :
    IsEntry t.text := by
  induction t using head_induction with
  | var x =>
    rw [wellNamed, Bool.and_eq_true] at h
    exact Token.isEntry_of_isIdentifier h.1
  | empty => exact Token.isEntry_of_mem (.head _)
  | head t f hf ih =>
    have children := ((wellNamed_of_head? hf).1 h).1
    rw [text_of_head? hf]
    exact Token.isEntry_applied (name_of_head? (by decide) hf h)
      (isWritten_listText fun c hc => ih c hc (children c hc))

theorem Atom.isEntry_text {a : Atom} (h : a.wellNamed Token.isIdentifier = true) : IsEntry a.text := by
  have args (t : Term) (ht : t ∈ a.args) : IsEntry t.text :=
    Term.isEntry_text (listWellNamed_args h t ht)
  have inside {f : Token} (hf : a.head? = some f) : IsEntry a.text := by
    rw [text_of_head? hf]
    exact Token.isEntry_applied (name_of_head? (by decide) hf h) (Term.isWritten_listText args)
  have between {l r : Term} {word : String} (hl : l ∈ a.args) (hr : r ∈ a.args)
      (hw : IsWritten word) : IsEntry (l.text ++ word ++ r.text) :=
    (args r hr).append (Token.isWritten_append.2 ⟨(args l hl).written, hw⟩)
  cases a with
  | eq l r | mem l r => exact between (.head _) (.tail _ (.head _)) (by decide)
  | pred p ts =>
    cases ts with
    | nil =>
      simp only [wellNamed, Bool.and_eq_true] at h
      exact Token.isEntry_of_isIdentifier h.1.1.1
    | cons => exact inside rfl
  | isEmpty | subset | setEq => exact inside rfl

/-- **A written formula goes on one line**, and nothing of it is trimmed. -/
theorem Formula.isEntry_text {f : Formula} (h : f.wellNamed Token.isIdentifier = true) :
    IsEntry f.text := by
  induction f with
  | top | bot => exact Token.isEntry_of_mem (by decide)
  | atom a => exact Atom.isEntry_text h
  | not f ih => exact (ih h).append (by decide)
  | connect c l r ihl ihr =>
    rw [wellNamed, Bool.and_eq_true] at h
    have word : IsWritten c.word := by cases c <;> decide
    refine Token.isEntry_closing.append ?_
    simp only [Token.isWritten_append]
    exact ⟨⟨⟨⟨⟨by decide, (ihl h.1).written⟩, by decide⟩, word⟩, by decide⟩, (ihr h.2).written⟩
  | all x f ih =>
    rw [wellNamed, Bool.and_eq_true] at h
    refine Token.isEntry_closing.append ?_
    simp only [Token.isWritten_append]
    exact ⟨⟨⟨by decide, (Token.isEntry_of_isIdentifier h.1).written⟩, by decide⟩, (ih h.2).written⟩

/-! ## One line -/

theorem Token.scan_dropWhile_isBlank (cs : List Char) : scan (cs.dropWhile Text.isBlank) = scan cs := by
  induction cs with
  | nil => rfl
  | cons c cs ih =>
    cases hc : Text.isBlank c with
    | true => rw [List.dropWhile_cons_of_pos hc, ih, scan_of_isBlank hc]
    | false => rw [List.dropWhile_cons_of_neg (by simp [hc])]

theorem Text.trim_eq_self {c : Char} {cs : List Char} (first : isBlank c = false)
    (last : ∃ d ∈ (c :: cs).getLast?, isBlank d = false) : trim (c :: cs) = c :: cs := by
  obtain ⟨d, hd, hb⟩ := last
  obtain ⟨init, hi⟩ := List.getLast?_eq_some_iff.1 hd
  rw [trim, List.dropWhile_cons_of_neg (by simp [first]), hi, List.reverse_append,
    List.reverse_singleton, List.singleton_append, List.dropWhile_cons_of_neg (by simp [hb]),
    List.reverse_cons, List.reverse_reverse]

namespace Problem

/-- A label: an unaccented letter or an underscore, and characters of words and dots after it. -/
def isLabel (label : String) : Bool :=
  match label.toList with
  | [] => false
  | c :: cs => (c.isAlpha || c == '_') && cs.all isLabelChar

theorem isLabel_iff {label : String} :
    isLabel label = true ↔ ∃ c cs, label.toList = c :: cs ∧ (c.isAlpha || c == '_') = true ∧
      ∀ d ∈ cs, isLabelChar d = true := by
  rw [isLabel]
  cases label.toList with
  | nil => simp
  | cons c cs =>
    rw [Bool.and_eq_true, List.all_eq_true]
    constructor
    · exact fun h => ⟨c, cs, rfl, h⟩
    · rintro ⟨_, _, ⟨⟩, h⟩
      exact h

theorem isLabel_goal : isLabel "goal" = true := by decide

theorem isWordChar_of_isAlphanum {c : Char} (h : c.isAlphanum = true) : Token.isWordChar c = true := by
  have ascii : c.toNat < 128 := by
    change c.val.toNat < 128
    delta Char.isAlphanum Char.isAlpha Char.isUpper Char.isLower Char.isDigit at h
    simp only [GE.ge, Bool.or_eq_true, Bool.and_eq_true, decide_eq_true_eq,
      UInt32.le_iff_toNat_le] at h
    rcases h with (⟨-, h⟩ | ⟨-, h⟩) | ⟨-, h⟩ <;> exact Nat.lt_of_le_of_lt h (by decide)
  rw [Token.isWordChar, Text.isLetter_of_ascii ascii, Text.isNumeral_of_ascii ascii]
  change (c.isAlphanum || c == '_') = true
  rw [h]
  rfl

theorem isWordChar_of_labelStart {c : Char} (h : (c.isAlpha || c == '_') = true) :
    Token.isWordChar c = true := by
  rcases Bool.or_eq_true_iff.1 h with h | h
  · exact isWordChar_of_isAlphanum (by rw [Char.isAlphanum, h]; rfl)
  · rw [Token.isWordChar, h, Bool.or_true]

theorem isWrittenChar_of_isLabelChar {c : Char} (h : isLabelChar c = true) :
    Token.isWrittenChar c = true := by
  rw [isLabelChar, Bool.or_eq_true, beq_iff_eq] at h
  rcases h with h | rfl
  · rw [Token.isWrittenChar, h]
    rfl
  · decide

theorem isWritten_of_isLabel {label : String} (h : isLabel label = true) : IsWritten label := by
  obtain ⟨c, cs, he, hc, hcs⟩ := isLabel_iff.1 h
  rw [IsWritten, he, List.forall_mem_cons]
  refine ⟨?_, fun d hd => isWrittenChar_of_isLabelChar (hcs d hd)⟩
  rw [Token.isWrittenChar, isWordChar_of_labelStart hc]
  rfl

/-- A label is cut off at the colon that was put after it. -/
theorem splitLabel_append {label : String} (h : isLabel label = true) (body : List Char) :
    splitLabel (label.toList ++ ':' :: ' ' :: body) =
      some (label.toList, body.dropWhile Text.isBlank) := by
  obtain ⟨c, cs, he, hc, hcs⟩ := isLabel_iff.1 h
  have colon : isLabelChar ':' = false := by decide
  have rest : (cs ++ ':' :: ' ' :: body).dropWhile isLabelChar = ':' :: ' ' :: body := by
    rw [List.dropWhile_append_of_pos hcs, List.dropWhile_cons_of_neg (by simp [colon])]
  have front : (cs ++ ':' :: ' ' :: body).takeWhile isLabelChar = cs := by
    rw [List.takeWhile_append_of_pos hcs, List.takeWhile_cons_of_neg (by simp [colon]),
      List.append_nil]
  have space : (' ' :: body).dropWhile Text.isBlank = body.dropWhile Text.isBlank :=
    List.dropWhile_cons_of_pos (by decide)
  rw [he, List.cons_append, splitLabel, if_pos hc, rest, List.dropWhile_cons_of_neg (by decide), front]
  exact congrArg (fun b => some (c :: cs, b)) space

/-- Nothing of a written line is a comment or trimmed. -/
theorem content_of_isEntry {line : String} {c : Char} {cs : List Char} (he : line.toList = c :: cs)
    (first : Text.isBlank c = false) (h : IsEntry line) : content line.toList = line.toList := by
  have clean : line.toList.takeWhile (· ≠ '#') = line.toList :=
    List.takeWhile_eq_self_iff.2 fun d hd => by
      simpa using Token.ne_comment_of_isWrittenChar (h.written d hd)
  have last := h.last
  rw [content, clean, he]
  rw [he] at last
  exact Text.trim_eq_self first last

/-- The line of a label and a formula. -/
def lineText (label : String) (f : Formula) : String := label ++ ": " ++ f.text

theorem isEntry_lineText {label : String} {f : Formula} (hl : isLabel label = true)
    (hf : f.wellNamed Token.isIdentifier = true) : IsEntry (lineText label f) :=
  (Formula.isEntry_text hf).append (Token.isWritten_append.2 ⟨isWritten_of_isLabel hl, by decide⟩)

/-- **A written line is read as its label and its formula.** -/
theorem addLine_lineText {label : String} {f : Formula} (hl : isLabel label = true)
    (hf : f.wellNamed Token.isIdentifier = true) (d : Entries) (number : Nat) :
    d.addLine number (lineText label f).toList = d.add number (some label) f := by
  obtain ⟨c, cs, he, hc, -⟩ := isLabel_iff.1 hl
  have chars : (lineText label f).toList = label.toList ++ ':' :: ' ' :: f.text.toList := by
    simp [lineText]
  have first : (lineText label f).toList = c :: (cs ++ ':' :: ' ' :: f.text.toList) := by
    rw [chars, he, List.cons_append]
  have whole := content_of_isEntry first (Token.isBlank_of_isWordChar (isWordChar_of_labelStart hc))
    (isEntry_lineText hl hf)
  have reads : readFormula ((Token.scan (f.text.toList.dropWhile Text.isBlank)).map String.ofList) =
      .ok f := by
    rw [Token.scan_dropWhile_isBlank]
    exact Formula.ofText_text_of_wellNamed hf
  rw [Entries.addLine, whole]
  split
  · rename_i hn
    rw [first] at hn
    cases hn
  · rw [chars, splitLabel_append hl]
    simp only [reads, String.ofList_toList]

end Problem

/-! ## Sequents that a problem can state -/

/-- A line can state the hypothesis: it is not injected, its name is a label that does not announce the
goal, and its formula reads back. -/
def Hypothesis.isWritable (h : Hypothesis) : Bool :=
  !h.injected && Problem.isLabel h.name && h.name != "goal" && h.formula.wellNamed Token.isIdentifier

/-- Lines can state the hypotheses and the goal. -/
def Sequent.isWritable (s : Sequent) : Bool :=
  s.hypotheses.all (·.isWritable) && s.goal.wellNamed Token.isIdentifier

theorem Hypothesis.isWritable_iff {h : Hypothesis} :
    h.isWritable = true ↔ h.injected = false ∧ Problem.isLabel h.name = true ∧ h.name ≠ "goal" ∧
      h.formula.wellNamed Token.isIdentifier = true := by
  simp [isWritable, and_assoc]

theorem Sequent.isWritable_iff {s : Sequent} :
    s.isWritable = true ↔ (∀ h ∈ s.hypotheses, h.isWritable = true) ∧
      s.goal.wellNamed Token.isIdentifier = true := by
  simp [isWritable]

theorem Hypothesis.text_eq (h : Hypothesis) : h.text = Problem.lineText h.name h.formula := rfl

namespace Problem

theorem add_of_ne_goal {label : String} (h : label ≠ "goal") (d : Entries) (number : Nat)
    (f : Formula) :
    d.add number (some label) f =
      .ok { d with hypotheses := d.hypotheses ++ [{ name := label, formula := f }] } := by
  unfold Entries.add
  split
  · rename_i he _
    exact absurd (Option.some.inj he) h
  · rename_i he _
    exact absurd (Option.some.inj he) h
  · rfl

/-- **The lines of hypotheses are read as these hypotheses**, whatever was read before. -/
theorem readLines_hypotheses {hs : List Hypothesis} (h : ∀ g ∈ hs, g.isWritable = true) (d : Entries)
    (number : Nat) (rest : List (List Char)) :
    readLines d number (hs.map (·.text.toList) ++ rest) =
      readLines { d with hypotheses := d.hypotheses ++ hs } (number + hs.length) rest := by
  induction hs generalizing d number with
  | nil => simp
  | cons g hs ih =>
    obtain ⟨hg, hhs⟩ := List.forall_mem_cons.1 h
    obtain ⟨asserted, label, name, formula⟩ := Hypothesis.isWritable_iff.1 hg
    have same : ({ name := g.name, formula := g.formula } : Hypothesis) = g := by
      rw [← asserted]
    rw [List.map_cons, List.cons_append, readLines, g.text_eq, addLine_lineText label formula,
      add_of_ne_goal name, same]
    simp only [ih hhs, List.append_assoc, List.singleton_append, List.length_cons]
    rw [Nat.add_assoc, Nat.add_comm 1]

theorem lines_text {s : Sequent} (h : s.isWritable = true) :
    Text.lines s.text.toList =
      s.hypotheses.map (·.text.toList) ++ [(lineText "goal" s.goal).toList] := by
  obtain ⟨hyps, goal⟩ := Sequent.isWritable_iff.1 h
  have entries : ∀ line ∈ s.lines, IsEntry line := by
    intro line hl
    rcases List.mem_append.1 hl with hl | hl
    · obtain ⟨g, hg, rfl⟩ := List.mem_map.1 hl
      obtain ⟨-, label, -, formula⟩ := Hypothesis.isWritable_iff.1 (hyps g hg)
      exact isEntry_lineText label formula
    · rw [List.mem_singleton.1 hl]
      exact isEntry_lineText isLabel_goal goal
  have cut : Text.lines (['\n'].intercalate (s.lines.map String.toList)) = s.lines.map String.toList := by
    refine Text.lines_intercalate (fun l hl => ?_) fun l hl c hc => ?_
    · obtain ⟨line, hm, rfl⟩ := List.mem_map.1 hl
      obtain ⟨c, hc, -⟩ := (entries line hm).last
      rintro he
      rw [he] at hc
      cases hc
    · obtain ⟨line, hm, rfl⟩ := List.mem_map.1 hl
      exact Token.endsLine_of_isWrittenChar ((entries line hm).written c hc)
  rw [Sequent.text, String.toList_intercalate]
  change Text.lines (['\n'].intercalate _) = _
  rw [cut, Sequent.lines, List.map_append, List.map_map]
  rfl

/-- A sequent that lines can state is read from its lines. -/
theorem read_text_of_isWritable {s : Sequent} (h : s.isWritable = true) : read s.text = .ok s := by
  obtain ⟨hyps, goal⟩ := Sequent.isWritable_iff.1 h
  rw [read, lines_text h, readLines_hypotheses hyps]
  simp only [readLines, addLine_lineText isLabel_goal goal, Entries.add, List.nil_append]

/-! ## Whatever is read can be written -/

theorem isLabel_place (n : Nat) : isLabel ("H" ++ toString n) = true := by
  refine isLabel_iff.2 ⟨'H', (toString n).toList, by simp, by decide, fun c hc => ?_⟩
  change c ∈ n.repr.toList at hc
  rw [Nat.repr_eq_ofList_toDigits, String.toList_ofList] at hc
  have digit := Nat.isDigit_of_mem_toDigits (by decide) (by decide) hc
  rw [isLabelChar, isWordChar_of_isAlphanum (by rw [Char.isAlphanum, digit, Bool.or_true])]
  rfl

theorem place_ne_goal (n : Nat) : "H" ++ toString n ≠ "goal" := by
  intro h
  have := congrArg (·.toList.head?) h
  simp at this

theorem isLabel_of_splitLabel {cs label body : List Char} (h : splitLabel cs = some (label, body)) :
    isLabel (String.ofList label) = true := by
  cases cs with
  | nil => cases h
  | cons c cs =>
    rw [splitLabel] at h
    split at h
    · rename_i hc
      split at h
      · cases h
      · cases h
        refine isLabel_iff.2 ⟨c, _, String.toList_ofList, hc, ?_⟩
        exact List.all_eq_true.1 List.all_takeWhile
      · cases h
    · cases h

/-- Lines can state everything that has been read. -/
structure Entries.IsWritable (d : Entries) : Prop where
  hypotheses : ∀ h ∈ d.hypotheses, h.isWritable = true
  goal : ∀ g ∈ d.goal, g.wellNamed Token.isIdentifier = true

variable {d d' : Entries} {number : Nat}

theorem Entries.IsWritable.add (hd : d.IsWritable) {label : Option String} {f : Formula}
    (hl : ∀ l ∈ label, isLabel l = true) (hf : f.wellNamed Token.isIdentifier = true)
    (h : d.add number label f = .ok d') : d'.IsWritable := by
  unfold Entries.add at h
  split at h
  · cases h
  · cases h
    refine ⟨hd.hypotheses, fun g hg => ?_⟩
    cases hg
    exact hf
  · rename_i label _ _ second first
    cases h
    refine ⟨List.forall_mem_append.2 ⟨hd.hypotheses, List.forall_mem_singleton.2 ?_⟩, hd.goal⟩
    refine Hypothesis.isWritable_iff.2 ⟨rfl, ?_⟩
    cases label with
    | none => exact ⟨isLabel_place _, place_ne_goal _, hf⟩
    | some l =>
      refine ⟨hl l rfl, ?_, hf⟩
      rintro rfl
      -- The line of a goal would have been taken as the goal, or refused.
      cases hg : d.goal with
      | none => exact first rfl hg
      | some g => exact second g rfl hg

theorem Entries.IsWritable.addLine (hd : d.IsWritable) {line : List Char}
    (h : d.addLine number line = .ok d') : d'.IsWritable := by
  have names {body : List Char} {f : Formula}
      (hf : readFormula ((Token.scan body).map String.ofList) = .ok f) :
      f.wellNamed Token.isIdentifier = true := by
    refine Formula.wellNamed_of_ofText (s := String.ofList body) ?_
    rw [Formula.ofText, Token.ofText, String.toList_ofList]
    exact hf
  unfold Entries.addLine at h
  split at h
  · cases h
    exact hd
  · cases hs : splitLabel (content line) with
    | none =>
      rw [hs] at h
      dsimp only at h
      split at h
      · cases h
      · rename_i f hf
        exact hd.add (fun _ hl => by cases hl) (names hf) h
    | some p =>
      obtain ⟨label, body⟩ := p
      rw [hs] at h
      dsimp only at h
      split at h
      · cases h
      · rename_i f hf
        refine hd.add (fun l hl => ?_) (names hf) h
        cases hl
        exact isLabel_of_splitLabel hs

/-- **Whatever is read can be written**: each line keeps this, so all lines do. -/
theorem Entries.IsWritable.readLines {lines : List (List Char)} (hd : d.IsWritable)
    (h : readLines d number lines = .ok d') : d'.IsWritable := by
  induction lines generalizing d number with
  | nil =>
    cases h
    exact hd
  | cons line lines ih =>
    rw [Problem.readLines] at h
    split at h
    · cases h
    · rename_i next hn
      exact ih (hd.addLine hn) h

theorem isWritable_of_read {text : String} {s : Sequent} (h : read text = .ok s) :
    s.isWritable = true := by
  unfold read at h
  split at h
  · cases h
  · rename_i d hd
    have start : ({} : Entries).IsWritable :=
      ⟨fun _ hh => (List.not_mem_nil hh).elim, fun _ hg => by cases hg⟩
    have valid := start.readLines hd
    split at h
    · cases h
    · rename_i goal hg
      cases h
      exact Sequent.isWritable_iff.2 ⟨valid.hypotheses, valid.goal goal hg⟩

/-- **Written sequents read back.** A sequent is read from its lines, with the same names, formulas and
order, exactly if no hypothesis is injected, every name is a label other than `goal`, and every formula
reads back. Whatever is read from any text is such a sequent. -/
theorem read_round_trip (s : Sequent) :
    (read s.text = .ok s ↔ s.isWritable = true) ∧
      ∀ text : String, read text = .ok s → s.isWritable = true ∧ read s.text = .ok s :=
  ⟨⟨isWritable_of_read, read_text_of_isWritable⟩, fun _ h =>
    ⟨isWritable_of_read h, read_text_of_isWritable (isWritable_of_read h)⟩⟩

/-- Labels with dots, digits and an accent, one of them a keyword and one used twice; a formula that
starts like a label. -/
def labels : Sequent where
  hypotheses :=
    [{ name := "a.1_é", formula := Formula.borderline },
      { name := "not", formula := .atom (.pred "P" []) },
      { name := "not", formula := .not (.atom (.eq (.var "goal") (.var "x"))) }]
  goal := .atom (.isEmpty (.diff .empty (.var "s")))

theorem read_round_trip_labels :
    labels.isWritable = true ∧ read labels.text = .ok labels ∧
      labels.lines.drop 1 = ["not: P", "not: not goal = x", "goal: Empty(diff(empty, s))"] := by
  have reads : read labels.text = .ok labels := (read_round_trip labels).1.2 (by decide)
  exact ⟨((read_round_trip labels).2 _ reads).1, reads, by decide⟩

end Problem

end SetSequent
