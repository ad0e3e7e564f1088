import DataCalculus.Surface.Head

/-!
# Spelled names and heads

The strings that surface forms are written with are read back as what they spell. A separator is
found where it was written, since its first character stands in no identifier; what follows it may
be any text, so that a head with an odd tag is no head at all.
-/

namespace DataCalculus

set_option autoImplicit false

namespace Text

/-- A separator is not found in a text without its first character. -/
theorem splitOnce_append {c : Char} {sep before rest : List Char} (h : c ∉ before) :
    splitOnce (c :: sep) (before ++ rest) =
      (splitOnce (c :: sep) rest).map fun parts => (before ++ parts.1, parts.2) := by
  induction before with
  | nil => simp
  | cons b before ih =>
    obtain ⟨hb, hbefore⟩ := not_or.1 (mt List.mem_cons.2 h)
    have hp : (c :: sep).isPrefixOf (b :: (before ++ rest)) = false := by
      simp [List.isPrefixOf, hb]
    rw [List.cons_append, splitOnce, hp, ih hbefore]
    simp [Function.comp_def]

theorem splitOnce_self (c : Char) (sep after : List Char) :
    splitOnce (c :: sep) (c :: sep ++ after) = some ([], after) := by
  have hp : (c :: sep).isPrefixOf (c :: (sep ++ after)) = true := by
    rw [List.isPrefixOf_iff_prefix]
    exact List.prefix_append (c :: sep) after
  rw [List.cons_append, splitOnce, hp]
  simp

theorem splitOnce_spelled {c : Char} {sep before after : List Char} (h : c ∉ before) :
    splitOnce (c :: sep) (before ++ (c :: sep ++ after)) = some (before, after) := by
  rw [splitOnce_append h, splitOnce_self]
  simp

theorem splitOnce_eq_none {c : Char} {sep cs : List Char} (h : c ∉ cs) :
    splitOnce (c :: sep) cs = none := by
  rw [← List.append_nil cs, splitOnce_append h]
  rfl

end Text

namespace Name

theorem toNat_of_isWordChar {c : Char} (h : isWordChar c = true) :
    48 ≤ c.toNat ∧ c.toNat ≤ 122 := by
  change ((((decide (c.val ≥ 'A'.val ∧ c.val ≤ 'Z'.val)) ||
    (decide (c.val ≥ 'a'.val) && decide (c.val ≤ 'z'.val))) ||
    (decide (c.val ≥ '0'.val) && decide (c.val ≤ '9'.val))) || c == '_') = true at h
  simp only [Bool.or_eq_true, Bool.and_eq_true, decide_eq_true_eq, beq_iff_eq, ge_iff_le,
    UInt32.le_iff_toNat_le] at h
  change (((65 ≤ c.toNat ∧ c.toNat ≤ 90) ∨ (97 ≤ c.toNat ∧ c.toNat ≤ 122)) ∨
    (48 ≤ c.toNat ∧ c.toNat ≤ 57)) ∨ c = '_' at h
  rcases h with ((h | h) | h) | h
  · omega
  · omega
  · omega
  · subst c
    decide

theorem isBlank_of_isWordChar {c : Char} (h : isWordChar c = true) : Text.isBlank c = false := by
  have hrange := toNat_of_isWordChar h
  simp only [Text.isBlank, Text.blankRanges, List.any_cons, List.any_nil, Bool.or_false,
    Bool.or_eq_false_iff, Bool.and_eq_false_iff, decide_eq_false_iff_not, Nat.not_le]
  omega

/-- An identifier has no character but word characters. -/
theorem not_mem_of_isIdentifierChars {cs : List Char} (h : isIdentifierChars cs = true) {c : Char}
    (hc : isWordChar c = false) : c ∉ cs := by
  intro hm
  rw [(isIdentifierChars_iff.1 h).2 c hm] at hc
  cases hc

theorem dropWhile_isBlank {cs : List Char} (h : ∀ c ∈ cs, isWordChar c = true) :
    cs.dropWhile Text.isBlank = cs := by
  cases cs with
  | nil => rfl
  | cons c cs =>
    rw [List.dropWhile_cons, isBlank_of_isWordChar (h c List.mem_cons_self)]
    rfl

theorem trimStart_identifier {cs : List Char} (h : isIdentifierChars cs = true) :
    Text.trimStart cs = cs := dropWhile_isBlank (isIdentifierChars_iff.1 h).2

theorem trimEnd_identifier {cs : List Char} (h : isIdentifierChars cs = true) :
    Text.trimEnd cs = cs := by
  have hrev : ∀ c ∈ cs.reverse, isWordChar c = true := by
    intro c hc
    exact (isIdentifierChars_iff.1 h).2 c (List.mem_reverse.1 hc)
  rw [Text.trimEnd, dropWhile_isBlank hrev, List.reverse_reverse]

end Name

namespace Surface

theorem identifiers?_of_isIdentifier {ty : Name} (hty : ty.isIdentifier = true) (tag : Name) :
    identifiers? (ty.toList, tag.toList) = if tag.isIdentifier then some (ty, tag) else none := by
  have hty' : Name.isIdentifierChars ty.toList = true := hty
  simp only [identifiers?, hty', Bool.true_and, String.ofList_toList]
  rfl

theorem typedName?_spelled {name ty : Name} (hn : name.isIdentifier = true)
    (ht : ty.isIdentifier = true) : typedName? (name ++ ":" ++ ty) = some (name, ty) := by
  have hchars : (name ++ ":" ++ ty).toList = name.toList ++ ([':'] ++ ty.toList) := by
    simp
  have hcolon : ':' ∉ name.toList := Name.not_mem_of_isIdentifierChars hn (by decide)
  rw [typedName?, hchars, Text.splitOnce_spelled hcolon, Option.bind_some,
    Name.trimEnd_identifier hn, Name.trimStart_identifier ht, identifiers?_of_isIdentifier hn,
    if_pos ht]

/-- A type is followed by its tag, which is read if it is an identifier. -/
theorem typeAndTag?_spelled {ty : Name} (hty : ty.isIdentifier = true) (tag : Name) :
    typeAndTag? (ty ++ "." ++ tag) = if tag.isIdentifier then some (ty, tag) else none := by
  have hchars : (ty ++ "." ++ tag).toList = ty.toList ++ (['.'] ++ tag.toList) := by
    simp
  have hpoint : '.' ∉ ty.toList := Name.not_mem_of_isIdentifierChars hty (by decide)
  rw [typeAndTag?, hchars, Text.splitOnce_spelled hpoint, Option.bind_some,
    identifiers?_of_isIdentifier hty]

namespace Head

/-- The head of a constructor is read as such exactly when the tag is an identifier. An arrow in
the tag does not make it another head, for then a point stands before the arrow. -/
theorem ofString?_construct {ty : Name} (hty : ty.isIdentifier = true) (tag : Name) :
    ofString? (Head.construct ty tag).spelling =
      if tag.isIdentifier then some (.construct ty tag) else none := by
  have hchars : (ty ++ "." ++ tag).toList = (ty.toList ++ ['.']) ++ tag.toList := by
    simp
  have harrow : '<' ∉ ty.toList ++ ['.'] := by
    intro h
    rcases List.mem_append.1 h with h | h
    · exact Name.not_mem_of_isIdentifierChars hty (by decide) h
    · simp at h
  rw [ofString?, spelling, hchars, Text.splitOnce_append harrow]
  cases hsplit : Text.splitOnce ['<', '-'] tag.toList with
  | none =>
    rw [Option.map_none, typeAndTag?_spelled hty]
    by_cases ht : tag.isIdentifier = true
    · simp [ht]
    · simp [ht]
  | some parts =>
    have hodd : tag.isIdentifier = false := by
      cases ht : tag.isIdentifier with
      | false => rfl
      | true =>
        have hlt : '<' ∉ tag.toList := Name.not_mem_of_isIdentifierChars ht (by decide)
        rw [Text.splitOnce_eq_none hlt] at hsplit
        cases hsplit
    have hpoint : Name.isIdentifierChars (ty.toList ++ ['.'] ++ parts.1) = false := by
      cases hi : Name.isIdentifierChars (ty.toList ++ ['.'] ++ parts.1) with
      | false => rfl
      | true =>
        have hno : '.' ∉ ty.toList ++ ['.'] ++ parts.1 :=
          Name.not_mem_of_isIdentifierChars hi (by decide)
        exact absurd (by simp) hno
    simp only [Option.map_some, hpoint, hodd, Bool.false_eq_true, ↓reduceIte]

theorem ofString?_arrow {ty : Name} (hty : ty.isIdentifier = true) (word : String) :
    ofString? (ty ++ "<-" ++ word) = ofWord? ty word.toList := by
  have hchars : (ty ++ "<-" ++ word).toList = ty.toList ++ (['<', '-'] ++ word.toList) := by
    simp
  have harrow : '<' ∉ ty.toList := Name.not_mem_of_isIdentifierChars hty (by decide)
  have hty' : Name.isIdentifierChars ty.toList = true := hty
  rw [ofString?, hchars, Text.splitOnce_spelled harrow]
  simp [hty']

theorem ofString?_call {ty : Name} (hty : ty.isIdentifier = true) :
    ofString? (Head.call ty).spelling = some (.call ty) := by
  have h := ofString?_arrow hty "apply"
  rw [String.append_assoc] at h
  exact h

theorem ofString?_caseOf {ty : Name} (hty : ty.isIdentifier = true) :
    ofString? (Head.caseOf ty).spelling = some (.caseOf ty) := by
  have h := ofString?_arrow hty "match"
  rw [String.append_assoc] at h
  exact h

end Head

end Surface

end DataCalculus
