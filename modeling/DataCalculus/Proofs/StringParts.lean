import DataCalculus.Proofs.Lexing
import DataCalculus.Surface.Reader
import Mathlib.Data.List.Basic

/-!
# Strings of surface forms and their parts

The patterns of the strings of surface forms, stated by their characters alone: words of ASCII
letters, digits and underscores, white space by its code points, and what stands between them. The
readers of these strings find the parts of every string that is put together after a pattern, and
find none in any other. A string has parts in one way at most, the white space included, and the
four patterns have no string in common.
-/

namespace DataCalculus

set_option autoImplicit false

namespace Name

/-- A character of `[A-Za-z0-9_]`. -/
def WordLetter (c : Char) : Prop :=
  ('A' ≤ c ∧ c ≤ 'Z') ∨ ('a' ≤ c ∧ c ≤ 'z') ∨ ('0' ≤ c ∧ c ≤ '9') ∨ c = '_'

instance (c : Char) : Decidable (WordLetter c) := inferInstanceAs (Decidable (_ ∨ _))

/-- A string of `[A-Za-z0-9_]+`. -/
def IsWord (name : Name) : Prop := name ≠ "" ∧ ∀ c ∈ name.toList, WordLetter c

-- Decided along the string: there are finitely many characters, and the search for an instance may
-- settle on trying all of them.
instance (name : Name) : Decidable name.IsWord :=
  @instDecidableAnd _ _ _ (List.decidableBAll WordLetter name.toList)

theorem isWordChar_iff {c : Char} : isWordChar c = true ↔ WordLetter c := by
  have hclasses : isWordChar c = (decide ('A' ≤ c ∧ c ≤ 'Z') ||
      (decide ('a' ≤ c) && decide (c ≤ 'z')) || (decide ('0' ≤ c) && decide (c ≤ '9')) ||
      c == '_') := rfl
  simp only [hclasses, WordLetter, Bool.or_eq_true, Bool.and_eq_true, decide_eq_true_eq, beq_iff_eq,
    or_assoc]

/-- The identifiers are the words. -/
theorem isIdentifier_iff_isWord {name : Name} : name.isIdentifier = true ↔ name.IsWord := by
  rw [isIdentifier, isIdentifierChars_iff, IsWord, Ne, String.toList_eq_nil_iff]
  simp only [isWordChar_iff]

end Name

namespace Text

/-- The code points with the Unicode property White_Space. -/
def whiteSpace : List Nat :=
  [0x9, 0xA, 0xB, 0xC, 0xD, 0x20, 0x85, 0xA0, 0x1680, 0x2000, 0x2001, 0x2002, 0x2003, 0x2004,
   0x2005, 0x2006, 0x2007, 0x2008, 0x2009, 0x200A, 0x2028, 0x2029, 0x202F, 0x205F, 0x3000]

/-- The string is white space, or empty. -/
def IsWhite (s : String) : Prop := ∀ c ∈ s.toList, c.toNat ∈ whiteSpace

instance (s : String) : Decidable (IsWhite s) :=
  List.decidableBAll (fun c : Char => c.toNat ∈ whiteSpace) s.toList

theorem isBlank_iff_mem_whiteSpace {c : Char} : isBlank c = true ↔ c.toNat ∈ whiteSpace := by
  have hpoints : whiteSpace = blankRanges.flatMap fun range =>
      List.range' range.1 (range.2 + 1 - range.1) := rfl
  simp only [hpoints, isBlank, List.any_eq_true, List.mem_flatMap, List.mem_range'_1,
    Bool.and_eq_true, decide_eq_true_eq]
  refine exists_congr fun range => and_congr_right fun _ => ?_
  omega

theorem forall_isBlank_iff_isWhite {s : String} :
    (∀ c ∈ s.toList, isBlank c = true) ↔ IsWhite s := by
  simp only [isBlank_iff_mem_whiteSpace, IsWhite]

theorem IsWhite.colon_not_mem {s : String} (h : IsWhite s) : ':' ∉ s.toList := by
  intro hc
  exact absurd (h ':' hc) (by decide)

end Text

namespace Surface

/-- The parts that a string of a surface form is put together from. -/
inductive Parts where
  | typed (name before after ty : String)
  | construct (ty tag : String)
  | call (ty : String)
  | caseOf (ty : String)
  deriving DecidableEq

namespace Parts

def whole : Parts → String
  | typed name before after ty => name ++ before ++ ":" ++ after ++ ty
  | construct ty tag => ty ++ "." ++ tag
  | call ty => ty ++ "<-apply"
  | caseOf ty => ty ++ "<-match"

/-- The names are words, and white space stands nowhere but around the colon. -/
def Proper : Parts → Prop
  | typed name before after ty =>
    Name.IsWord name ∧ Name.IsWord ty ∧ Text.IsWhite before ∧ Text.IsWhite after
  | construct ty tag => Name.IsWord ty ∧ Name.IsWord tag
  | call ty | caseOf ty => Name.IsWord ty

instance : (p : Parts) → Decidable p.Proper
  | typed _ _ _ _ => inferInstanceAs (Decidable (_ ∧ _))
  | construct _ _ => inferInstanceAs (Decidable (_ ∧ _))
  | call ty | caseOf ty => inferInstanceAs (Decidable (Name.IsWord ty))

/-- The string is put together from the parts, after their pattern. -/
structure Spell (p : Parts) (s : String) : Prop where
  proper : p.Proper
  spelled : s = p.whole

instance (p : Parts) (s : String) : Decidable (p.Spell s) :=
  decidable_of_iff (p.Proper ∧ s = p.whole) ⟨fun h => ⟨h.1, h.2⟩, fun h => ⟨h.proper, h.spelled⟩⟩

/-- The parts of a head. -/
def ofHead : Head → Parts
  | .construct ty tag => construct ty tag
  | .call ty => call ty
  | .caseOf ty => caseOf ty

theorem eq_typed_or_ofHead (p : Parts) :
    (∃ name before after ty, p = typed name before after ty) ∨ ∃ head, p = ofHead head := by
  cases p with
  | typed name before after ty => exact .inl ⟨name, before, after, ty, rfl⟩
  | construct ty tag => exact .inr ⟨.construct ty tag, rfl⟩
  | call ty => exact .inr ⟨.call ty, rfl⟩
  | caseOf ty => exact .inr ⟨.caseOf ty, rfl⟩

variable {s : String}

theorem exists_spell_typed_iff {name ty : Name} :
    (∃ before after, (typed name before after ty).Spell s) ↔ SpellsVariable s name ty := by
  constructor
  · intro h
    obtain ⟨before, after, ⟨hname, hty, hbefore, hafter⟩, hs⟩ := h
    exact ⟨Name.isIdentifier_iff_isWord.2 hname, Name.isIdentifier_iff_isWord.2 hty, before, after,
      Text.forall_isBlank_iff_isWhite.2 hbefore, Text.forall_isBlank_iff_isWhite.2 hafter, hs⟩
  · intro h
    obtain ⟨hname, hty, before, after, hbefore, hafter, hs⟩ := h
    exact ⟨before, after, ⟨Name.isIdentifier_iff_isWord.1 hname, Name.isIdentifier_iff_isWord.1 hty,
      Text.forall_isBlank_iff_isWhite.1 hbefore, Text.forall_isBlank_iff_isWhite.1 hafter⟩, hs⟩

theorem Spell.spellsVariable {name before after ty : String}
    (h : (typed name before after ty).Spell s) : SpellsVariable s name ty :=
  exists_spell_typed_iff.1 ⟨before, after, h⟩

theorem proper_ofHead_iff {head : Head} : (ofHead head).Proper ↔ head.Proper := by
  cases head <;> simp only [ofHead, Proper, Head.Proper, Name.isIdentifier_iff_isWord]

theorem spell_ofHead_iff {head : Head} : (ofHead head).Spell s ↔ SpellsHead s head := by
  have hwhole : (ofHead head).whole = head.spelling := by cases head <;> rfl
  constructor
  · intro h
    exact ⟨proper_ofHead_iff.1 h.proper, h.spelled.trans hwhole⟩
  · intro h
    exact ⟨proper_ofHead_iff.2 h.proper, h.spelled.trans hwhole.symm⟩

/-- The name and the type of a typed variable leave one way to divide what is between them, since
white space has no colon in it. -/
theorem Spell.typed_unique {name before after ty name' before' after' ty' : String}
    (h : (typed name before after ty).Spell s) (h' : (typed name' before' after' ty').Spell s) :
    typed name before after ty = typed name' before' after' ty' := by
  -- The reader of the string tells its name and its type; white space it drops.
  obtain ⟨rfl, rfl⟩ := h.spellsVariable.unique h'.spellsVariable
  obtain ⟨⟨_, _, hbefore, hafter⟩, hs⟩ := h
  have hchars : name.toList ++ (before.toList ++ ':' :: after.toList) ++ ty.toList =
      name.toList ++ (before'.toList ++ ':' :: after'.toList) ++ ty.toList := by
    simpa [whole] using congrArg String.toList (hs.symm.trans h'.spelled)
  have hmiddle := List.append_cancel_left (List.append_cancel_right hchars)
  obtain ⟨hb, _, ha⟩ :=
    (List.append_cons_inj_of_notMem hbefore.colon_not_mem hafter.colon_not_mem).1 hmiddle
  rw [String.toList_inj.1 hb, String.toList_inj.1 ha]

/-- No string is a typed variable and a head: it would be read as a head and as none. -/
theorem Spell.not_ofHead {name before after ty : String}
    (h : (typed name before after ty).Spell s) (head : Head) : ¬ (ofHead head).Spell s := by
  intro hhead
  have hread := Head.ofString?_eq_some_iff.2 (spell_ofHead_iff.1 hhead)
  rw [h.spellsVariable.ofString?_eq_none] at hread
  cases hread

/-- A string is put together in one way only. -/
theorem Spell.unique {p q : Parts} (hp : p.Spell s) (hq : q.Spell s) : p = q := by
  obtain ⟨_, _, _, _, rfl⟩ | ⟨head, rfl⟩ := p.eq_typed_or_ofHead
  · obtain ⟨_, _, _, _, rfl⟩ | ⟨head, rfl⟩ := q.eq_typed_or_ofHead
    · exact hp.typed_unique hq
    · exact absurd hq (hp.not_ofHead head)
  · obtain ⟨_, _, _, _, rfl⟩ | ⟨head', rfl⟩ := q.eq_typed_or_ofHead
    · exact absurd hp (hq.not_ofHead head)
    · rw [(spell_ofHead_iff.1 hp).unique (spell_ofHead_iff.1 hq)]

end Parts

variable {s : String}

theorem typedName?_eq_some_iff_parts {name ty : Name} : typedName? s = some (name, ty) ↔
    ∃ before after, (Parts.typed name before after ty).Spell s :=
  typedName?_eq_some_iff.trans Parts.exists_spell_typed_iff.symm

theorem Head.ofString?_eq_some_iff_parts {head : Head} :
    ofString? s = some head ↔ (Parts.ofHead head).Spell s :=
  ofString?_eq_some_iff.trans Parts.spell_ofHead_iff.symm

theorem typeAndTag?_eq_some_iff_parts {ty tag : Name} :
    typeAndTag? s = some (ty, tag) ↔ (Parts.construct ty tag).Spell s := by
  have hparts := @Parts.spell_ofHead_iff s (.construct ty tag)
  rw [typeAndTag?_eq_some_iff, ← hparts, Parts.ofHead]

theorem typedName?_eq_none_iff_parts : typedName? s = none ↔
    ∀ name before after ty, ¬ (Parts.typed name before after ty).Spell s := by
  rw [Option.eq_none_iff_forall_ne_some]
  constructor
  · intro h name before after ty hparts
    exact h (name, ty) (typedName?_eq_some_iff_parts.2 ⟨before, after, hparts⟩)
  · rintro h ⟨name, ty⟩ hread
    obtain ⟨before, after, hparts⟩ := typedName?_eq_some_iff_parts.1 hread
    exact h name before after ty hparts

theorem Head.ofString?_eq_none_iff_parts : ofString? s = none ↔
    (∀ ty tag, ¬ (Parts.construct ty tag).Spell s) ∧ (∀ ty, ¬ (Parts.call ty).Spell s) ∧
      ∀ ty, ¬ (Parts.caseOf ty).Spell s := by
  have hnone : ofString? s = none ↔ ∀ head, ¬ (Parts.ofHead head).Spell s := by
    rw [Option.eq_none_iff_forall_ne_some]
    exact forall_congr' fun head => ofString?_eq_some_iff_parts.not
  rw [hnone]
  constructor
  · intro h
    exact ⟨fun ty tag => h (.construct ty tag), fun ty => h (.call ty), fun ty => h (.caseOf ty)⟩
  · rintro ⟨hconstruct, hcall, hcaseOf⟩ head
    cases head with
    | construct ty tag => exact hconstruct ty tag
    | call ty => exact hcall ty
    | caseOf ty => exact hcaseOf ty

/-- Typed variables and heads are recognised exactly in the strings that are put together from their
parts, and these parts are what is read. Where a variable is due, any other string is reported as it
stands. No string is put together in two ways. -/
theorem strings_are_taken_apart_in_one_way (s : String) :
    (∀ name ty, typedName? s = some (name, ty) ↔
      ∃ before after, (Parts.typed name before after ty).Spell s) ∧
    (∀ R : Registry,
      (∀ name before after ty, (Parts.typed name before after ty).Spell s →
        R.readTerm (.str s) = R.free name ty ∧ R.readParam (.str s) = R.param name ty) ∧
      ((∀ name before after ty, ¬ (Parts.typed name before after ty).Spell s) →
        R.readTerm (.str s) = .error (.malformedVariable (.str s)) ∧
          R.readParam (.str s) = .error (.malformedVariable (.str s)))) ∧
    (∀ ty tag, typeAndTag? s = some (ty, tag) ↔ (Parts.construct ty tag).Spell s) ∧
    (∀ ty, Head.ofString? s = some (.call ty) ↔ (Parts.call ty).Spell s) ∧
    (∀ ty, Head.ofString? s = some (.caseOf ty) ↔ (Parts.caseOf ty).Spell s) ∧
    (∀ ty tag, Head.ofString? s = some (.construct ty tag) ↔ typeAndTag? s = some (ty, tag)) ∧
    (Head.ofString? s = none ↔
      (∀ ty tag, ¬ (Parts.construct ty tag).Spell s) ∧ (∀ ty, ¬ (Parts.call ty).Spell s) ∧
        ∀ ty, ¬ (Parts.caseOf ty).Spell s) ∧
    ∀ p q : Parts, p.Spell s → q.Spell s → p = q := by
  refine ⟨fun name ty => typedName?_eq_some_iff_parts, fun R => ⟨?_, ?_⟩,
    fun ty tag => typeAndTag?_eq_some_iff_parts, fun ty => Head.ofString?_eq_some_iff_parts,
    fun ty => Head.ofString?_eq_some_iff_parts, ?_, Head.ofString?_eq_none_iff_parts,
    fun p q => Parts.Spell.unique⟩
  · intro name before after ty hparts
    have hread := typedName?_eq_some_iff_parts.2 ⟨before, after, hparts⟩
    simp only [Registry.readTerm, Registry.readParam, hread, and_self]
  · intro hparts
    have hread := typedName?_eq_none_iff_parts.2 hparts
    simp only [Registry.readTerm, Registry.readParam, hread, and_self]
  · intro ty tag
    rw [Head.ofString?_eq_some_iff, typeAndTag?_eq_some_iff]

/-- An ideographic space and a tab belong to neither name, and a second colon leaves no typed variable
to read. -/
theorem wide_space_is_white_and_second_colon_is_malformed :
    ((Parts.typed "n" "\u3000" "\t" "Nat").Spell "n\u3000:\tNat" ∧
      ∀ p : Parts, p.Spell "n\u3000:\tNat" → p = .typed "n" "\u3000" "\t" "Nat") ∧
    ((∀ name before after ty, ¬ (Parts.typed name before after ty).Spell "n:Nat:Nat") ∧
      Registry.empty.readParam (.str "n:Nat:Nat") =
        .error (.malformedVariable (.str "n:Nat:Nat"))) := by
  have hparts : (Parts.typed "n" "\u3000" "\t" "Nat").Spell "n\u3000:\tNat" := by decide
  have hnone := typedName?_eq_none_iff_parts.1 (rfl : typedName? "n:Nat:Nat" = none)
  obtain ⟨_, _, _, _, _, _, _, hunique⟩ := strings_are_taken_apart_in_one_way "n\u3000:\tNat"
  obtain ⟨_, hreaders, _⟩ := strings_are_taken_apart_in_one_way "n:Nat:Nat"
  exact ⟨⟨hparts, fun p hp => hunique p _ hp hparts⟩, hnone, ((hreaders .empty).2 hnone).2⟩

/-- A constructor followed by an arrow is no head at all, nor is a type with two tags. -/
example : Head.ofString? "Nat.next<-apply" = none ∧ Head.ofString? "Nat.next.next" = none := by
  decide

end Surface

end DataCalculus
