import SetSequent.Proofs.ReadAtoms

/-!
# Written formulas read back

The written form puts parentheses around every connective and every quantifier, so the reader makes its
cuts where the formula was put together. Names are the only danger: one that is a keyword, or that stands
for something else where it is used, is not read as it was written.

* `Reads`, `readFormula_eq_ok` — the reader of formulas as a relation.
* `cutConnective_of_balanced` — the connective between two formulas is the one they are cut at.
* `Formula.reads_tokens` — a formula is read from its tokens.
* `Formula.wellNamed_of_reads` — the names of a formula that is read are among the tokens.
* `Formula.ofText_round_trip` — a formula is read back exactly if its names are identifiers and none is
  taken for something else, and this holds of everything that is read.
-/

namespace SetSequent

/-! ## The reader as a relation -/

/-- The names that a quantifier binds: commas between them are skipped. -/
def boundNames (binders : List Token) : List Token := binders.filter (· ≠ ",")

/-- How a list of tokens is read as a formula: a quantifier at the front comes first, then the loosest
connective, then the first token decides. -/
inductive Reads : List Token → Formula → Prop where
  | all {rest binders body : List Token} {f : Formula} (dot : cutDot rest = some (binders, body))
      (some_name : boundNames binders ≠ []) (names : ∀ x ∈ boundNames binders, x.isName = true)
      (scope : Reads body f) : Reads ("forall" :: rest) ((boundNames binders).foldr .all f)
  | connect {first : Token} {rest l r : List Token} {c : Connective} {f g : Formula}
      (not_all : first ≠ "forall") (cut : cutConnective (first :: rest) = some (c, l, r))
      (left : Reads l f) (right : Reads r g) : Reads (first :: rest) (.connect c f g)
  | not {rest : List Token} {f : Formula} (no_cut : cutConnective ("not" :: rest) = none)
      (body : Reads rest f) : Reads ("not" :: rest) (.not f)
  | top : Reads ["true"] .top
  | bot : Reads ["false"] .bot
  | group {rest inner : List Token} {f : Formula} (no_cut : cutConnective ("(" :: rest) = none)
      (close : cutGroup rest = some (inner, [])) (inside : Reads inner f) : Reads ("(" :: rest) f
  | atom {first : Token} {rest : List Token} {a : Atom}
      (no_cut : cutConnective (first :: rest) = none) (read : readAtom first rest = .ok a) :
      Reads (first :: rest) (.atom a)

namespace Reads

variable {ts : List Token} {f : Formula}

theorem ne_nil (h : Reads ts f) : ts ≠ [] := by
  cases h <;> exact List.cons_ne_nil _ _

theorem readFormula_eq (h : Reads ts f) : readFormula ts = .ok f := by
  induction h with
  | @all rest binders body f dot some_name names scope ih =>
    have named : ((boundNames binders).isEmpty || !(boundNames binders).all Token.isName) = false := by
      rw [List.isEmpty_eq_false_iff.2 some_name, List.all_eq_true.2 names]
      rfl
    rw [readFormula, if_pos rfl]
    split
    · rename_i he
      cases dot.symm.trans he
    · rename_i he
      cases dot.symm.trans he
      rw [boundNames] at named
      simp only [named, List.isEmpty_eq_false_iff.2 scope.ne_nil, ih, Bool.false_eq_true, if_false]
      rfl
  | connect not_all cut left right ihl ihr =>
    rw [readFormula, if_neg not_all]
    split
    · rename_i he
      cases cut.symm.trans he
      simp only [List.isEmpty_eq_false_iff.2 left.ne_nil, List.isEmpty_eq_false_iff.2 right.ne_nil,
        ihl, ihr, Bool.or_false, Bool.false_eq_true, if_false]
      rfl
    · rename_i he
      cases cut.symm.trans he
  | not no_cut body ih =>
    rw [readFormula, if_neg (by decide)]
    split
    · rename_i he
      cases no_cut.symm.trans he
    · simp only [List.isEmpty_eq_false_iff.2 body.ne_nil, ih, Bool.false_eq_true, if_false, if_true]
      rfl
  | top | bot =>
    rw [readFormula]
    rfl
  | @group rest inner f no_cut close inside ih =>
    rw [readFormula, if_neg (by decide)]
    split
    · rename_i he
      cases no_cut.symm.trans he
    · rw [if_neg (by decide), if_neg (by simp), if_neg (by simp), if_pos rfl]
      split
      · rename_i he
        cases close.symm.trans he
      · rename_i he
        cases close.symm.trans he
        simp only [List.isEmpty_eq_false_iff.2 inside.ne_nil, ih, Bool.false_eq_true, if_false]
      · rename_i hne he
        cases close.symm.trans he
        exact absurd rfl (hne inner)
  | @atom first rest a no_cut read =>
    -- An atom starts with a name, and no word that the reader tests for is one.
    have hname := Atom.isName_of_readAtom read
    have ne {word : Token} (hw : word.isName = false) : first ≠ word := Token.ne_of_isName hname hw
    rw [readFormula, if_neg (ne (by decide))]
    split
    · rename_i he
      cases no_cut.symm.trans he
    · rw [if_neg (ne (by decide)), if_neg fun he => ne (by decide) he.1,
        if_neg fun he => ne (by decide) he.1, if_neg (ne (by decide)), read]
      rfl

theorem of_readFormula (h : readFormula ts = .ok f) : Reads ts f := by
  fun_induction readFormula ts generalizing f with
  | case5 rest binders body dot names hnames hbody =>
    rename_i ih
    obtain ⟨g, hg, he⟩ := bind_eq_ok.1 h
    cases he
    exact .all dot (by grind [boundNames]) (by grind [boundNames]) (ih hg)
  | case7 t rest not_all c l r cut _ ihl ihr =>
    obtain ⟨f, hf, h⟩ := bind_eq_ok.1 h
    obtain ⟨g, hg, h⟩ := bind_eq_ok.1 h
    cases h
    exact .connect not_all cut (ihl hf) (ihr hg)
  | case9 rest _ _ no_cut ih =>
    obtain ⟨g, hg, he⟩ := bind_eq_ok.1 h
    cases he
    exact .not no_cut (ih hg)
  | case10 t rest _ _ _ he =>
    obtain ⟨rfl, rfl⟩ := he
    cases h
    exact .top
  | case11 t rest _ _ _ _ he =>
    obtain ⟨rfl, rfl⟩ := he
    cases h
    exact .bot
  | case14 rest inner close _ _ no_cut _ _ _ ih => exact .group no_cut close (ih h)
  | case15 rest _ _ _ _ no_cut | case16 t rest _ no_cut =>
    obtain ⟨a, ha, h⟩ := bind_eq_ok.1 h
    cases h
    exact .atom no_cut ha
  | _ => cases h

end Reads

/-- **The reader is this relation.** -/
theorem readFormula_eq_ok {ts : List Token} {f : Formula} : readFormula ts = .ok f ↔ Reads ts f :=
  ⟨.of_readFormula, Reads.readFormula_eq⟩

/-! ## Cuts at connectives -/

/-- A token that no formula is cut at. -/
def Token.IsInner (t : Token) : Prop := t ≠ "forall" ∧ ∀ c : Connective, t ≠ c.word

theorem Token.isInner_of_isName {t : Token} (h : t.isName = true) : t.IsInner := by
  refine ⟨ne_of_isName h (by decide), fun c => ?_⟩
  cases c <;> exact ne_of_isName h (by decide)

theorem Token.isInner_of_mem {t : Token} (h : t ∈ ["true", "false", "not", "=", "in"]) : t.IsInner := by
  have words : ∀ t ∈ ["true", "false", "not", "=", "in"],
      t ≠ "forall" ∧ ∀ c ∈ [Connective.and, .or, .implies, .iff], t ≠ c.word := by decide
  exact ⟨(words t h).1, fun c => (words t h).2 c (by cases c <;> decide)⟩

section

variable {ts l r : List Token} {c : Connective}

theorem cutConnective_none (h : Balanced Token.IsInner ts) : cutConnective ts = none := by
  refine List.findSome?_eq_none_iff.2 fun c _ => ?_
  rw [cutAt_none_of_balanced h (by cases c <;> decide) fun t ht => ⟨ht.2 c, ht.1⟩]
  rfl

/-- The connective between two formulas is the one they are cut at. -/
theorem cutConnective_of_balanced (hl : Balanced Token.IsInner l) (hr : Balanced Token.IsInner r) :
    cutConnective (l ++ c.word :: r) = some (c, l, r) := by
  have apart (d : Connective) (hd : d ≠ c) : c.word ≠ d.word := by
    intro hw
    cases c <;> cases d <;> simp_all [Connective.word]
  have here : cutAt c.word (l ++ c.word :: r) = some (l, r) :=
    cutAt_of_balanced hl (by cases c <;> decide) (by cases c <;> decide) fun t ht => ⟨ht.2 c, ht.1⟩
  -- Looser connectives are tried first, so they must not be found.
  have elsewhere (d : Connective) (hd : d ≠ c) : cutAt d.word (l ++ c.word :: r) = none := by
    have whole : Balanced (fun t => t ≠ d.word ∧ t ≠ "forall") (l ++ c.word :: r) := by
      have inner (t : Token) (ht : t.IsInner) : t ≠ d.word ∧ t ≠ "forall" := ⟨ht.2 d, ht.1⟩
      refine (hl.imp inner).append (.token ⟨apart d hd, ?_⟩ ?_ ?_ (hr.imp inner)) <;>
        cases c <;> decide
    exact cutAt_none_of_balanced whole (by cases d <;> decide) fun t ht => ht
  cases c <;> simp [cutConnective, here, elsewhere]

/-- Two formulas with a connective between them are read as their composition. -/
theorem Reads.of_sides {f g : Formula} (hl : Balanced Token.IsInner l) (hr : Balanced Token.IsInner r)
    (hf : Reads l f) (hg : Reads r g) : Reads (l ++ c.word :: r) (.connect c f g) := by
  cases l with
  | nil => exact absurd rfl hf.ne_nil
  | cons x rest =>
    have first : x ≠ "forall" := by
      cases hl with
      | token inner => exact inner.1
      | group => decide
    exact .connect first (cutConnective_of_balanced hl hr) hf hg

theorem eq_of_cutConnective (h : cutConnective ts = some (c, l, r)) : ∃ t, ts = l ++ t :: r := by
  obtain ⟨d, -, hd⟩ := List.exists_of_findSome?_eq_some h
  obtain ⟨p, hp, he⟩ := Option.map_eq_some_iff.1 hd
  cases he
  obtain ⟨t, -, ht⟩ := eq_of_cutBy hp
  exact ⟨t, ht⟩

theorem cutDot_cons {x : Token} (h : x ≠ ".") (body : List Token) :
    cutDot (x :: "." :: body) = some ([x], body) := by
  simp [cutDot, h]

theorem eq_of_cutDot {binders body : List Token} (h : cutDot ts = some (binders, body)) :
    ts = binders ++ "." :: body := by
  unfold cutDot at h
  split at h
  · cases h
  · rename_i t _ hd
    cases h
    have dot : t = "." := by
      have first := List.head?_dropWhile_not (fun t : Token => decide (t ≠ ".")) ts
      rw [hd] at first
      simpa using first
    subst dot
    rw [← hd, List.takeWhile_append_dropWhile]

end

/-! ## The written form is read -/

theorem balanced_between {P : Token → Prop} {l r : List Token} (c : Connective) (hl : Balanced P l)
    (hr : Balanced P r) : Balanced (fun _ => True) (l ++ c.word :: r) := by
  have sides : c.word ≠ "(" ∧ c.word ≠ ")" := by cases c <;> decide
  have left := hl.imp fun _ _ => trivial
  have right := hr.imp fun _ _ => trivial
  exact left.append (.token trivial sides.1 sides.2 right)

theorem balanced_quantified {P : Token → Prop} {x : Token} {body : List Token}
    (hx : x.isName = true) (hb : Balanced P body) :
    Balanced (fun _ => True) ("forall" :: x :: "." :: body) := by
  have scope := hb.imp fun _ _ => trivial
  have named (u : Token) (hu : u.isName = false) : x ≠ u := Token.ne_of_isName hx hu
  exact .token trivial (by decide) (by decide) (.token trivial (named _ (by decide))
    (named _ (by decide)) (.token trivial (by decide) (by decide) scope))

/-- Parentheses around what is read as a formula change nothing. -/
theorem Reads.parenthesised {P : Token → Prop} {ts : List Token} {f : Formula} (hb : Balanced P ts)
    (h : Reads ts f) : Reads ("(" :: (ts ++ [")"])) f :=
  .group (cutConnective_none (hb.imp fun _ _ => trivial).parenthesised) (cutGroup_of_balanced hb) h

namespace Formula

variable {f : Formula} {ts : List Token} {name : Token → Bool}

/-- Outside parentheses a formula has no quantifier and no connective. -/
theorem balanced_tokens (h : f.wellNamed Token.isName = true) : Balanced Token.IsInner f.tokens := by
  induction f with
  | top | bot => exact .token (Token.isInner_of_mem (by decide)) (by decide) (by decide) .nil
  | atom a =>
    refine (Atom.balanced_tokens h).imp fun t ht => ?_
    rcases ht with ht | ht
    · exact Token.isInner_of_isName ht
    · exact Token.isInner_of_mem
        (List.mem_append_right ["true", "false", "not"] (Atom.mem_of_symbol? ht))
  | not f ih => exact .token (Token.isInner_of_mem (by decide)) (by decide) (by decide) (ih h)
  | connect c l r ihl ihr =>
    rw [wellNamed, Bool.and_eq_true] at h
    exact (balanced_between c (ihl h.1) (ihr h.2)).parenthesised
  | all x f ih =>
    rw [wellNamed, Bool.and_eq_true] at h
    exact (balanced_quantified h.1 (ih h.2)).parenthesised

/-- **A formula is read from its tokens.** -/
theorem reads_tokens (h : f.wellNamed Token.isName = true) : Reads f.tokens f := by
  induction f with
  | top => exact .top
  | bot => exact .bot
  | atom a =>
    cases ht : a.tokens with
    | nil => exact absurd ht a.tokens_ne_nil
    | cons x rest =>
      have no_cut := cutConnective_none (balanced_tokens h)
      rw [tokens, ht] at no_cut ⊢
      exact .atom no_cut (Atom.readAtom_tokens h ht)
  | not f ih => exact .not (cutConnective_none (balanced_tokens (f := .not f) h)) (ih h)
  | connect c l r ihl ihr =>
    rw [wellNamed, Bool.and_eq_true] at h
    have left := balanced_tokens h.1
    have right := balanced_tokens h.2
    exact .parenthesised (balanced_between c left right) (.of_sides left right (ihl h.1) (ihr h.2))
  | all x f ih =>
    rw [wellNamed, Bool.and_eq_true] at h
    -- The written form binds one name at a time.
    have comma : boundNames [x] = [x] := by
      simp [boundNames, Token.ne_of_isName h.1 (show Token.isName "," = false by decide)]
    have dot := cutDot_cons (Token.ne_of_isName h.1 (by decide)) f.tokens
    have inside := Reads.all dot (by simp [comma]) (by simp [comma, h.1]) (ih h.2)
    rw [comma] at inside
    exact .parenthesised (balanced_quantified h.1 (balanced_tokens h.2)) inside

theorem wellNamed_foldr_all (names : List Token) :
    (names.foldr all f).wellNamed name = true ↔
      (∀ x ∈ names, name x = true) ∧ f.wellNamed name = true := by
  induction names with
  | nil => simp
  | cons x names ih => simp [wellNamed, ih, and_assoc]

/-- The names of a formula that is read are among the tokens. -/
theorem wellNamed_of_reads (h : Reads ts f)
    (hn : ∀ x ∈ ts, Token.isName x = true → name x = true) : f.wellNamed name = true := by
  induction h with
  | @all rest binders body f dot some_name names scope ih =>
    obtain rfl := eq_of_cutDot dot
    have bound (x : Token) (hx : x ∈ boundNames binders) : name x = true :=
      hn x (.tail _ (List.mem_append_left _ (List.mem_filter.1 hx).1)) (names x hx)
    have body := ih fun x hx => hn x (.tail _ (List.mem_append_right _ (.tail _ hx)))
    exact (wellNamed_foldr_all _).2 ⟨bound, body⟩
  | connect not_all cut left right ihl ihr =>
    obtain ⟨t, ht⟩ := eq_of_cutConnective cut
    rw [ht] at hn
    rw [wellNamed, Bool.and_eq_true]
    exact ⟨ihl fun x hx => hn x (List.mem_append_left _ hx),
      ihr fun x hx => hn x (List.mem_append_right _ (.tail _ hx))⟩
  | not no_cut body ih => exact ih fun x hx => hn x (.tail _ hx)
  | top | bot => rfl
  | group no_cut close inside ih =>
    obtain ⟨t, -, rfl⟩ := eq_of_cutBy close
    exact ih fun x hx => hn x (.tail _ (List.mem_append_left _ hx))
  | atom no_cut read => exact Atom.wellNamed_of_readAtom read hn

theorem ofText_text_of_wellNamed (h : f.wellNamed Token.isIdentifier = true) :
    Formula.ofText f.text = .ok f := by
  have names : f.wellNamed Token.isName = true :=
    wellNamed_imp h fun x hx => (Bool.and_eq_true_iff.1 hx).1
  rw [Formula.ofText, ofText_text h]
  exact readFormula_eq_ok.2 (reads_tokens names)

theorem wellNamed_of_ofText {s : String} (h : Formula.ofText s = .ok f) :
    f.wellNamed Token.isIdentifier = true :=
  wellNamed_of_reads (readFormula_eq_ok.1 h) fun _ hx hn => Token.isIdentifier_of_mem_ofText hx hn

/-- **Written formulas read back.** A formula is read from its written form exactly if every name in it
is an identifier, no variable is called `empty`, no function is called `empty` or like a constructor of
sets, and every predicate is capitalised and, with arguments, not called like a reserved one. Whatever is
read from any text is such a formula. -/
theorem ofText_round_trip (f : Formula) :
    (Formula.ofText f.text = .ok f ↔ f.wellNamed Token.isIdentifier = true) ∧
      ∀ s : String, Formula.ofText s = .ok f →
        f.wellNamed Token.isIdentifier = true ∧ Formula.ofText f.text = .ok f :=
  ⟨⟨wellNamed_of_ofText, ofText_text_of_wellNamed⟩, fun _ h =>
    ⟨wellNamed_of_ofText h, ofText_text_of_wellNamed (wellNamed_of_ofText h)⟩⟩

/-- A bound variable called `empty`, a bare predicate called like a reserved one, a function without
arguments, a capitalised variable and one that starts like a keyword. -/
def borderline : Formula :=
  .all "empty" (.iff (.not (.atom (.pred "Eq" [])))
    (.and (.atom (.mem (.app "f" []) (.union (.var "X") .empty))) (.atom (.pred "P" [.var "in_"]))))

theorem ofText_round_trip_borderline :
    borderline.text = "(forall empty. (not Eq iff (f() in union(X, empty) and P(in_))))" ∧
      Formula.ofText borderline.text = .ok borderline ∧
      borderline.wellNamed Token.isIdentifier = true := by
  have reads : Formula.ofText borderline.text = .ok borderline :=
    (ofText_round_trip borderline).1.2 (by decide)
  exact ⟨by decide, reads, ((ofText_round_trip borderline).2 _ reads).1⟩

end Formula

end SetSequent
