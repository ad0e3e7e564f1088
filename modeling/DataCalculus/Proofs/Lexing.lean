import DataCalculus.Proofs.Spelling

/-!
# What the strings of surface forms spell

A typed variable is two identifiers with a colon between them, which blanks may surround; a head is
written in one way only. The readers of these strings cut at the first separator and look at the
pieces. They accept exactly the strings that have such a spelling, and give back what is spelled, so
that no string has two.
-/

namespace DataCalculus

set_option autoImplicit false

namespace Text

variable {w cs : List Char}

theorem trimStart_append (h : ∀ c ∈ w, isBlank c = true) : trimStart (w ++ cs) = trimStart cs := by
  exact List.dropWhile_append_of_pos h

theorem trimEnd_append (h : ∀ c ∈ w, isBlank c = true) : trimEnd (cs ++ w) = trimEnd cs := by
  have hrev : ∀ c ∈ w.reverse, isBlank c = true := fun c hc => h c (List.mem_reverse.1 hc)
  rw [trimEnd, List.reverse_append, List.dropWhile_append_of_pos hrev, trimEnd]

theorem exists_blanks_trimStart (cs : List Char) :
    ∃ w, (∀ c ∈ w, isBlank c = true) ∧ cs = w ++ trimStart cs := by
  refine ⟨cs.takeWhile isBlank, ?_, List.takeWhile_append_dropWhile.symm⟩
  intro c hc
  exact List.all_eq_true.1 List.all_takeWhile c hc

theorem exists_blanks_trimEnd (cs : List Char) :
    ∃ w, (∀ c ∈ w, isBlank c = true) ∧ cs = trimEnd cs ++ w := by
  obtain ⟨w, hw, he⟩ := exists_blanks_trimStart cs.reverse
  refine ⟨w.reverse, fun c hc => hw c (List.mem_reverse.1 hc), ?_⟩
  have hrev := congrArg List.reverse he
  rw [List.reverse_reverse, List.reverse_append] at hrev
  exact hrev

end Text

namespace Surface

/-- The string is `name : ty`, with any blanks around the colon and none elsewhere. -/
structure SpellsVariable (s : String) (name ty : Name) : Prop where
  name_identifier : name.isIdentifier = true
  ty_identifier : ty.isIdentifier = true
  spelled : ∃ before after : String, (∀ c ∈ before.toList, Text.isBlank c = true) ∧
    (∀ c ∈ after.toList, Text.isBlank c = true) ∧ s = name ++ before ++ ":" ++ after ++ ty

theorem identifiers?_eq_some {parts : List Char × List Char} {a b : Name} :
    identifiers? parts = some (a, b) ↔
      a.isIdentifier = true ∧ b.isIdentifier = true ∧ parts = (a.toList, b.toList) := by
  obtain ⟨as, bs⟩ := parts
  constructor
  · intro h
    simp only [identifiers?, Option.ite_none_right_eq_some, Bool.and_eq_true, Option.some.injEq,
      Prod.mk.injEq] at h
    obtain ⟨⟨ha, hb⟩, rfl, rfl⟩ := h
    exact ⟨(Name.isIdentifier_ofList as).trans ha, (Name.isIdentifier_ofList bs).trans hb, by simp⟩
  · intro h
    obtain ⟨ha, hb, he⟩ := h
    rw [he, identifiers?_of_isIdentifier ha, if_pos hb]

theorem typedName?_eq_some_iff {s : String} {name ty : Name} :
    typedName? s = some (name, ty) ↔ SpellsVariable s name ty := by
  constructor
  · intro h
    obtain ⟨⟨first, last⟩, hsplit, hparts⟩ := Option.bind_eq_some_iff.1 h
    obtain ⟨hname, hty, he⟩ := identifiers?_eq_some.1 hparts
    obtain ⟨hfirst, hlast⟩ := Prod.mk.inj he
    obtain ⟨before, hbefore, hb⟩ := Text.exists_blanks_trimEnd first
    obtain ⟨after, hafter, ha⟩ := Text.exists_blanks_trimStart last
    refine ⟨hname, hty, String.ofList before, String.ofList after, by simpa using hbefore,
      by simpa using hafter, ?_⟩
    rw [← String.toList_inj, ← Text.append_of_splitOnce hsplit, hb, ha, hfirst, hlast]
    simp
  · intro h
    obtain ⟨hname, hty, before, after, hbefore, hafter, hs⟩ := h
    have hchars : s.toList =
        (name.toList ++ before.toList) ++ ([':'] ++ (after.toList ++ ty.toList)) := by
      rw [hs]
      simp
    have hcolon : ':' ∉ name.toList ++ before.toList := by
      intro h
      rcases List.mem_append.1 h with h | h
      · exact Name.not_mem_of_isIdentifierChars hname (by decide) h
      · exact absurd (hbefore _ h) (by decide)
    rw [typedName?, hchars, Text.splitOnce_spelled hcolon, Option.bind_some,
      Text.trimEnd_append hbefore, Text.trimStart_append hafter, Name.trimEnd_identifier hname,
      Name.trimStart_identifier hty]
    exact identifiers?_eq_some.2 ⟨hname, hty, rfl⟩

theorem SpellsVariable.unique {s : String} {name name' ty ty' : Name}
    (h : SpellsVariable s name ty) (h' : SpellsVariable s name' ty') : name = name' ∧ ty = ty' := by
  rw [← typedName?_eq_some_iff] at h h'
  rw [h] at h'
  exact Prod.mk.inj (Option.some.inj h')

/-- The names in the head are identifiers. -/
def Head.Proper : Head → Prop
  | .construct ty tag => ty.isIdentifier = true ∧ tag.isIdentifier = true
  | .call ty | .caseOf ty => ty.isIdentifier = true

/-- The string is the head, written with identifiers. -/
structure SpellsHead (s : String) (head : Head) : Prop where
  proper : head.Proper
  spelled : s = head.spelling

theorem Head.ofWord?_eq_some {ty : Name} {word : List Char} {head : Head} :
    ofWord? ty word = some head ↔
      (word = "apply".toList ∧ head = .call ty) ∨ (word = "match".toList ∧ head = .caseOf ty) := by
  unfold ofWord?
  by_cases happly : word = "apply".toList
  · simp [happly, eq_comm]
  · by_cases hmatch : word = "match".toList
    · simp [hmatch, eq_comm]
    · simp only [happly, hmatch, ↓reduceIte, reduceCtorEq, false_and, or_self]

theorem typeAndTag?_eq_some_iff {s : String} {ty tag : Name} :
    typeAndTag? s = some (ty, tag) ↔ SpellsHead s (.construct ty tag) := by
  constructor
  · intro h
    obtain ⟨⟨first, last⟩, hsplit, hparts⟩ := Option.bind_eq_some_iff.1 h
    obtain ⟨hty, htag, he⟩ := identifiers?_eq_some.1 hparts
    obtain ⟨rfl, rfl⟩ := Prod.mk.inj he
    refine ⟨⟨hty, htag⟩, ?_⟩
    rw [← String.toList_inj, ← Text.append_of_splitOnce hsplit]
    simp [Head.spelling]
  · intro h
    obtain ⟨⟨hty, htag⟩, hs⟩ := h
    rw [hs, Head.spelling, typeAndTag?_spelled hty, if_pos htag]

/-- Heads are read exactly from the strings that spell them. -/
theorem Head.ofString?_eq_some_iff {s : String} {head : Head} :
    ofString? s = some head ↔ SpellsHead s head := by
  constructor
  · intro h
    rw [ofString?] at h
    cases hsplit : Text.splitOnce ['<', '-'] s.toList with
    | none =>
      rw [hsplit] at h
      obtain ⟨⟨ty, tag⟩, hparts, rfl⟩ := Option.map_eq_some_iff.1 h
      exact typeAndTag?_eq_some_iff.1 hparts
    | some parts =>
      obtain ⟨first, word⟩ := parts
      simp only [hsplit, Option.ite_none_right_eq_some] at h
      obtain ⟨hty, hword⟩ := h
      have hproper : Name.isIdentifier (String.ofList first) = true :=
        (Name.isIdentifier_ofList first).trans hty
      have hchars := Text.append_of_splitOnce hsplit
      rcases ofWord?_eq_some.1 hword with ⟨rfl, rfl⟩ | ⟨rfl, rfl⟩
      · refine ⟨hproper, ?_⟩
        rw [← String.toList_inj, ← hchars]
        simp [spelling]
      · refine ⟨hproper, ?_⟩
        rw [← String.toList_inj, ← hchars]
        simp [spelling]
  · intro h
    obtain ⟨hproper, hs⟩ := h
    rw [hs]
    cases head with
    | construct ty tag => rw [ofString?_construct hproper.1, if_pos hproper.2]
    | call ty => exact ofString?_call hproper
    | caseOf ty => exact ofString?_caseOf hproper

theorem SpellsHead.unique {s : String} {head head' : Head} (h : SpellsHead s head)
    (h' : SpellsHead s head') : head = head' := by
  rw [← Head.ofString?_eq_some_iff] at h h'
  rw [h] at h'
  exact Option.some.inj h'

theorem SpellsHead.colon_not_mem {s : String} {head : Head} (h : SpellsHead s head) :
    ':' ∉ s.toList := by
  have hname : ∀ {name : Name}, name.isIdentifier = true → ':' ∉ name.toList := fun hi =>
    Name.not_mem_of_isIdentifierChars hi (by decide)
  obtain ⟨hproper, rfl⟩ := h
  cases head with
  | construct ty tag => simp [Head.spelling, hname hproper.1, hname hproper.2]
  | call ty => simp [Head.spelling, hname hproper]
  | caseOf ty => simp [Head.spelling, hname hproper]

/-- A string that spells a variable spells no head. -/
theorem SpellsVariable.ofString?_eq_none {s : String} {name ty : Name}
    (h : SpellsVariable s name ty) : Head.ofString? s = none := by
  cases hhead : Head.ofString? s with
  | none => rfl
  | some head =>
    obtain ⟨_, _, before, after, _, _, hs⟩ := h
    have hcolon := (Head.ofString?_eq_some_iff.1 hhead).colon_not_mem
    rw [hs] at hcolon
    simp at hcolon

end Surface

end DataCalculus
