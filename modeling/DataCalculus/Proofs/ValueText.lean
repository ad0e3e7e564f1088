import DataCalculus.Proofs.Inhabitants

/-!
# Texts of values

The text of a value can be read in one way only, provided that types and tags are identifiers: a name
ends at the first character that no identifier has, and the character tells whether arguments follow,
how many there are and where each of them ends. Over a checked registry all values are of this kind.
A tag with an angle bracket in it can make up a text that is not its own.
-/

namespace DataCalculus

set_option autoImplicit false

namespace Name

/-- The text is empty or begins with a character that no identifier has. -/
def EndsBefore (rest : List Char) : Prop := ∀ c, rest.head? = some c → isWordChar c = false

theorem endsBefore_cons {c : Char} (hc : isWordChar c = false) (rest : List Char) :
    EndsBefore (c :: rest) := by
  intro d hd
  rw [← Option.some.inj hd]
  exact hc

/-- A name is found again at the beginning of a text in which it ends. -/
theorem takeWhile_append {name : Name} {rest : List Char} (hname : name.isIdentifier = true)
    (hrest : EndsBefore rest) : (name.toList ++ rest).takeWhile isWordChar = name.toList := by
  have hchars : ∀ c ∈ name.toList, isWordChar c = true := (isIdentifierChars_iff.1 hname).2
  have hnil : rest.takeWhile isWordChar = [] := by
    cases rest with
    | nil => rfl
    | cons c rest => rw [List.takeWhile_cons, hrest c rfl, if_neg Bool.false_ne_true]
  rw [List.takeWhile_append_of_pos hchars, hnil, List.append_nil]

/-- A text begins with one name only. -/
theorem append_inj {a b : Name} {r s : List Char} (ha : a.isIdentifier = true)
    (hb : b.isIdentifier = true) (hr : EndsBefore r) (hs : EndsBefore s)
    (h : a.toList ++ r = b.toList ++ s) : a = b ∧ r = s := by
  have hnames := congrArg (List.takeWhile isWordChar) h
  rw [takeWhile_append ha hr, takeWhile_append hb hs] at hnames
  rw [hnames] at h
  exact ⟨String.toList_inj.1 hnames, List.append_cancel_left h⟩

end Name

namespace Value

/-- Every type and every tag in the value is an identifier. -/
inductive Proper : Value → Prop where
  | mk {ty tag : Name} {args : List Value} (ty_identifier : ty.isIdentifier = true)
      (tag_identifier : tag.isIdentifier = true) (below : ∀ arg ∈ args, Proper arg) :
      Proper (.mk ty tag args)

/-- What may follow a value in a text: nothing, the next argument, or the end of the arguments. -/
inductive Follows : List Char → Prop where
  | nothing : Follows []
  | argument (rest : List Char) : Follows (',' :: rest)
  | close (rest : List Char) : Follows ('>' :: rest)

/-- The arguments between angle brackets, and nothing if there are none. -/
def bracketed : List Value → List Char → List Char
  | [], rest => rest
  | arg :: args, rest => '<' :: arg.write (writeArgs args ('>' :: rest))

theorem write_eq (ty tag : Name) (args : List Value) (rest : List Char) :
    (mk ty tag args).write rest = ty.toList ++ '.' :: (tag.toList ++ bracketed args rest) := by
  cases args with
  | nil => simp [write, bracketed]
  | cons arg args => simp [write, bracketed]

theorem follows_writeArgs (args : List Value) (rest : List Char) :
    Follows (writeArgs args ('>' :: rest)) := by
  cases args with
  | nil => exact .close rest
  | cons arg args => exact .argument _

theorem Follows.endsBefore_bracketed {rest : List Char} (h : Follows rest) (args : List Value) :
    Name.EndsBefore (bracketed args rest) := by
  cases args with
  | cons arg args => exact Name.endsBefore_cons (by decide) _
  | nil =>
    cases h with
    | nothing => exact fun c hc => by cases hc
    | argument rest => exact Name.endsBefore_cons (by decide) rest
    | close rest => exact Name.endsBefore_cons (by decide) rest

/-- No text of arguments is mistaken for what follows a value without arguments. -/
theorem Follows.ne_open {rest : List Char} (h : Follows rest) (cs : List Char) : rest ≠ '<' :: cs := by
  cases h <;> simp

/-- A text that begins with this value begins with no other proper value, and the value ends at one
place in it. -/
def ReadsOnly (a : Value) : Prop :=
  ∀ (b : Value) (r s : List Char), b.Proper → Follows r → Follows s → a.write r = b.write s →
    a = b ∧ r = s

theorem writeArgs_inj {args bs : List Value} (hargs : ∀ arg ∈ args, arg.ReadsOnly)
    (hbs : ∀ b ∈ bs, b.Proper) {r s : List Char}
    (h : writeArgs args ('>' :: r) = writeArgs bs ('>' :: s)) : args = bs ∧ r = s := by
  induction args generalizing bs with
  | nil =>
    cases bs with
    | nil =>
      rw [writeArgs, writeArgs] at h
      exact ⟨rfl, List.tail_eq_of_cons_eq h⟩
    | cons b bs => simp [writeArgs] at h
  | cons arg args ih =>
    cases bs with
    | nil => simp [writeArgs] at h
    | cons b bs =>
      obtain ⟨harg, hothers⟩ := List.forall_mem_cons.1 hargs
      obtain ⟨hb, hproper⟩ := List.forall_mem_cons.1 hbs
      simp only [writeArgs, List.cons.injEq, true_and] at h
      obtain ⟨rfl, hrest⟩ := harg b _ _ hb (follows_writeArgs args r) (follows_writeArgs bs s) h
      obtain ⟨rfl, rfl⟩ := ih hothers hproper hrest
      exact ⟨rfl, rfl⟩

theorem bracketed_inj {args bs : List Value} (hargs : ∀ arg ∈ args, arg.ReadsOnly)
    (hbs : ∀ b ∈ bs, b.Proper) {r s : List Char} (hr : Follows r) (hs : Follows s)
    (h : bracketed args r = bracketed bs s) : args = bs ∧ r = s := by
  cases args with
  | nil =>
    cases bs with
    | nil => exact ⟨rfl, h⟩
    | cons b bs => exact absurd h (hr.ne_open _)
  | cons arg args =>
    cases bs with
    | nil => exact absurd h.symm (hs.ne_open _)
    | cons b bs =>
      -- After the bracket the arguments stand as they would after a comma and a blank.
      have hcommas : writeArgs (arg :: args) ('>' :: r) = writeArgs (b :: bs) ('>' :: s) :=
        congrArg (fun cs => ',' :: ' ' :: cs) (List.tail_eq_of_cons_eq h)
      exact writeArgs_inj hargs hbs hcommas

/-- The text of a proper value is read in one way, whatever follows it. -/
theorem Proper.readsOnly {a : Value} (ha : a.Proper) : a.ReadsOnly := by
  induction ha with
  | @mk ty tag args hty htag _ ih =>
    rintro ⟨ty', tag', bs⟩ r s ⟨hty', htag', hbs⟩ hr hs h
    rw [write_eq, write_eq] at h
    obtain ⟨rfl, htags⟩ := Name.append_inj hty hty' (Name.endsBefore_cons (by decide) _)
      (Name.endsBefore_cons (by decide) _) h
    obtain ⟨rfl, hargs⟩ := Name.append_inj htag htag' (hr.endsBefore_bracketed args)
      (hs.endsBefore_bracketed bs) (List.tail_eq_of_cons_eq htags)
    obtain ⟨rfl, rfl⟩ := bracketed_inj ih hbs hr hs hargs
    exact ⟨rfl, rfl⟩

theorem Valid.proper {R : Registry} (hR : R.Reachable) (hcheck : R.check = .ok ()) {v : Value}
    (h : v.Valid R) : v.Proper := by
  induction h with
  | mk hd hs _ ih =>
    exact .mk (hR.name_eq hd).2 ((Registry.check_eq_ok hR).1 hcheck _ _ _ _ hd hs).1 ih

/-- Over a checked registry, values have the same text only if they are the same. -/
theorem display_eq_display_iff {R : Registry} (hR : R.Reachable) (hcheck : R.check = .ok ())
    {a b : Value} (ha : a.Obtainable R) (hb : b.Obtainable R) :
    a.display = b.display ↔ a = b := by
  constructor
  · intro h
    have hchars : a.write [] = b.write [] := String.ofList_injective h
    have hproper := (ha.valid hR).proper hR hcheck
    exact (hproper.readsOnly b [] [] ((hb.valid hR).proper hR hcheck) .nothing .nothing hchars).1
  · intro h
    rw [h]

/-- Two trees over three leaves, whose texts differ by the places of the brackets only. -/
theorem trees_of_three_leaves_have_two_texts :
    (node leaf (node leaf leaf)).display ≠ (node (node leaf leaf) leaf).display := by
  have hnode := node_built leaf_built leaf_built rfl rfl
  have h := display_eq_display_iff Registry.trees_reachable rfl
    (node_built leaf_built hnode rfl rfl).obtainable (node_built hnode leaf_built rfl rfl).obtainable
  exact h.not.2 (by decide)

/-- A tag that is no identifier gives a value the text of another one. -/
example : (mk "Nat" "next<Nat.zero>" []).display = (mk "Nat" "next" [mk "Nat" "zero" []]).display := by
  decide

end Value

end DataCalculus
