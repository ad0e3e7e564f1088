import DataCalculus.Proofs.Conflicts
import DataCalculus.Proofs.ValueReading

/-!
# Faults of reading

Reading a tree fails in one of two ways. A part of the tree is no surface form: then the fault holds
this part, and so points into the tree. Or the parts are read and do not fit together, which is a
fault of building a term; of these, the ones about names that are no identifiers cannot arise, since
the names were spelled in the tree. Faults that only values, environments and limits have are never
reported for terms. The registry need not be reachable, and keys of objects may be in any order.
-/

namespace DataCalculus

set_option autoImplicit false

namespace Json

/-- The tree is the other one or stands somewhere in it, as an item or as a member. -/
inductive Within (node : Json) : Json → Prop where
  | self : Within node node
  | item {items : List Json} {item : Json} (mem : item ∈ items) (h : Within node item) :
      Within node (.arr items)
  | member {fields : List (String × Json)} {field : String × Json} (mem : field ∈ fields)
      (h : Within node field.2) : Within node (.obj fields)

theorem Within.trans {a b c : Json} (hab : a.Within b) (hbc : b.Within c) : a.Within c := by
  induction hbc with
  | self => exact hab
  | item mem _ ih => exact .item mem ih
  | member mem _ ih => exact .member mem ih

theorem within_arr {items : List Json} {item : Json} (mem : item ∈ items) :
    item.Within (.arr items) := .item mem .self

theorem within_fields {items : List Json} {fields : List (String × Json)} {field : String × Json}
    (hobj : .obj fields ∈ items) (mem : field ∈ fields) : field.2.Within (.arr items) :=
  .item hobj (.member mem .self)

theorem plain_of_ne_str {j : Json} (h : ∀ s, j ≠ .str s) : j.plain = j.text := by
  cases j with
  | str s => exact absurd rfl (h s)
  | null | bool | num | arr | obj => rfl

end Json

namespace Fault

/-- The faults of building a term of names that are identifiers. -/
inductive OfBuilding : Fault → Prop where
  | unknownType (name : Name) : OfBuilding (.unknownType name)
  | unknownConstructor (ty tag : Name) : OfBuilding (.unknownConstructor ty tag)
  | inconsistentVariable (name first second : Name) :
      OfBuilding (.inconsistentVariable name first second)
  | missingBranch (ty tag : Name) : OfBuilding (.missingBranch ty tag)
  | branchSignatureMismatch (ty tag : Name) (expected got : List Name) :
      OfBuilding (.branchSignatureMismatch ty tag expected got)
  | resultTypeMismatch (expected got : Name) : OfBuilding (.resultTypeMismatch expected got)
  | repeatedParameter (name : Name) : OfBuilding (.repeatedParameter name)
  | parameterTypeMismatch (param expected got : Name) :
      OfBuilding (.parameterTypeMismatch param expected got)
  | argumentCountMismatch (expected got : Nat) : OfBuilding (.argumentCountMismatch expected got)

/-- The faults of reading a term: a part of the tree is no surface form, or the term that was read
cannot be built. -/
inductive OfReading (j : Json) : Fault → Prop where
  | unrecognized {head : Json} (within : head.Within j) : OfReading j (.unrecognized head)
  | literal {s : String} (within : (Json.str s).Within j) : OfReading j (.malformedVariable (.str s))
  | parameter {params : List Json} {body p : Json}
      (within : (Json.arr [.arr params, body]).Within j) (mem : p ∈ params)
      (odd : ∀ s, p ≠ .str s) : OfReading j (.malformedVariable p)
  | functionBody {params items : List Json} (within : (Json.arr (.arr params :: items)).Within j)
      (odd : items.length ≠ 1) : OfReading j (.functionBody items.length)
  | building {fault : Fault} (h : fault.OfBuilding) : OfReading j fault

/-- The faults of reading a value: a part of the tree is no constructor form, or a value that was
read does not fit the registry. -/
inductive OfReadingValue (j : Json) : Fault → Prop where
  | unrecognized {head : Json} (within : head.Within j) : OfReadingValue j (.unrecognized head)
  | unknownType (name : Name) : OfReadingValue j (.unknownType name)
  | unknownConstructor (ty tag : Name) : OfReadingValue j (.unknownConstructor ty tag)
  | arityMismatch (ty tag : Name) (expected got : Nat) :
      OfReadingValue j (.arityMismatch ty tag expected got)
  | argumentTypeMismatch (ty tag : Name) (index : Nat) (expected got : Name) :
      OfReadingValue j (.argumentTypeMismatch ty tag index expected got)

theorem OfReading.mono {j k : Json} {fault : Fault} (h : fault.OfReading j) (hjk : j.Within k) :
    fault.OfReading k := by
  cases h with
  | unrecognized within => exact .unrecognized (within.trans hjk)
  | literal within => exact .literal (within.trans hjk)
  | parameter within mem odd => exact .parameter (within.trans hjk) mem odd
  | functionBody within odd => exact .functionBody (within.trans hjk) odd
  | building h => exact .building h

section Payload

variable {j : Json}

/-- The checks that are left to values, environments and limits, and those of names that reading has
made, report nothing. -/
theorem OfReading.static {fault : Fault} (h : fault.OfReading j) :
    (∀ name, fault ≠ .invalidName name) ∧
    (∀ ty tag expected got, fault ≠ .arityMismatch ty tag expected got) ∧
    (∀ ty tag index expected got, fault ≠ .argumentTypeMismatch ty tag index expected got) ∧
    (∀ name expected found, fault ≠ .unsatisfiedDependency name expected found) ∧
    ∀ limit, fault ≠ .depthExceeded limit := by
  cases h with
  | unrecognized | literal | parameter | functionBody => simp
  | building h => cases h <;> simp

theorem OfReading.head_within {head : Json} (h : OfReading j (.unrecognized head)) :
    head.Within j := by
  cases h with
  | unrecognized within => exact within
  | building h => cases h

theorem OfReading.literal_within {literal : Json} (h : OfReading j (.malformedVariable literal)) :
    (∃ s, literal = .str s ∧ literal.Within j) ∨
    (∀ s, literal ≠ .str s) ∧
      ∃ params body, (Json.arr [.arr params, body]).Within j ∧ literal ∈ params := by
  cases h with
  | literal within => exact .inl ⟨_, rfl, within⟩
  | parameter within mem odd => exact .inr ⟨odd, _, _, within, mem⟩
  | building h => cases h

theorem OfReading.body_within {got : Nat} (h : OfReading j (.functionBody got)) :
    got ≠ 1 ∧ ∃ params items, (Json.arr (.arr params :: items)).Within j ∧
      (Json.arr params :: items).length = got + 1 := by
  cases h with
  | functionBody within odd => exact ⟨odd, _, _, within, rfl⟩
  | building h => cases h

end Payload

theorem OfReadingValue.mono {j k : Json} {fault : Fault} (h : fault.OfReadingValue j)
    (hjk : j.Within k) : fault.OfReadingValue k := by
  cases h with
  | unrecognized within => exact .unrecognized (within.trans hjk)
  | unknownType name => exact .unknownType name
  | unknownConstructor ty tag => exact .unknownConstructor ty tag
  | arityMismatch ty tag expected got => exact .arityMismatch ty tag expected got
  | argumentTypeMismatch ty tag index expected got =>
    exact .argumentTypeMismatch ty tag index expected got

end Fault

/-- A step that has a result, or one of the faults `P`. -/
def FailsOnly {α : Type} (P : Fault → Prop) : Except Fault α → Prop
  | .ok _ => True
  | .error fault => P fault

namespace FailsOnly

variable {α β : Type} {P Q : Fault → Prop}

theorem fault {r : Except Fault α} {fault : Fault} (h : FailsOnly P r) (hr : r = .error fault) :
    P fault := by
  rw [hr] at h
  exact h

theorem intro {r : Except Fault α} (h : ∀ fault, r = .error fault → P fault) : FailsOnly P r := by
  cases r with
  | ok a => trivial
  | error fault => exact h fault rfl

theorem mono {r : Except Fault α} (h : FailsOnly P r) (hPQ : ∀ fault, P fault → Q fault) :
    FailsOnly Q r := by
  cases r with
  | ok a => trivial
  | error fault => exact hPQ fault h

theorem bind {first : Except Fault α} {next : α → Except Fault β} (h : FailsOnly P first)
    (hnext : ∀ a, FailsOnly P (next a)) : FailsOnly P (first >>= next) := by
  cases first with
  | ok a => exact hnext a
  | error fault => exact h

theorem mapM {f : α → Except Fault β} {as : List α} (h : ∀ a ∈ as, FailsOnly P (f a)) :
    FailsOnly P (as.mapM f) := by
  induction as with
  | nil => trivial
  | cons a as ih =>
    obtain ⟨ha, has⟩ := List.forall_mem_cons.1 h
    rw [List.mapM_cons]
    exact ha.bind fun b => (ih has).bind fun bs => trivial

end FailsOnly

open Fault

variable {R : Registry} {j : Json}

section Builders

theorem Registry.get_failsOnly (ty : Name) : FailsOnly OfBuilding (R.get ty) := by
  unfold get
  cases R.types.get? ty with
  | none => exact .unknownType ty
  | some decl => trivial

theorem TypeDecl.signature_failsOnly (decl : TypeDecl) (tag : Name) :
    FailsOnly OfBuilding (decl.signature tag) := by
  unfold signature
  cases decl.constructors.get? tag with
  | none => exact .unknownConstructor decl.name tag
  | some args => trivial

theorem Deps.union_failsOnly (parts : List Deps) : FailsOnly OfBuilding (union parts) := by
  refine .intro fun fault h => ?_
  obtain ⟨name, first, second, _, rfl⟩ := union_eq_error.1 h
  exact .inconsistentVariable name first second

/-- A name that a string spells is an identifier, so that only its type can be at fault. -/
theorem Registry.typedName_failsOnly {α : Type} {s : String} {name ty : Name}
    (hs : Surface.typedName? s = some (name, ty)) (make : TypeDecl → α) :
    FailsOnly OfBuilding (if !name.isIdentifier then .error (.invalidName name)
      else do let decl ← R.get ty; return make decl : Except Fault α) := by
  have hname : name.isIdentifier = true := (Surface.typedName?_eq_some_iff.1 hs).name_identifier
  simp only [hname, Bool.not_true, Bool.false_eq_true, ↓reduceIte]
  exact (get_failsOnly ty).bind fun decl => trivial

theorem Registry.construct_failsOnly {tag : Name} (htag : tag.isIdentifier = true) (ty : Name)
    (args : List Term) : FailsOnly OfBuilding (R.construct ty tag args) := by
  refine (get_failsOnly ty).bind fun decl => (decl.signature_failsOnly tag).bind fun _ => ?_
  simp only [htag, Bool.not_true, Bool.false_eq_true, ↓reduceIte]
  exact (Deps.union_failsOnly _).bind fun deps => trivial

theorem Func.ofBuilding_of_paramFault? {used : Deps} {earlier : List Name} {params : List Param}
    {fault : Fault} (h : paramFault? used earlier params = some fault) : fault.OfBuilding := by
  fun_induction paramFault? used earlier params with
  | case1 => cases h
  | case2 earlier p params hrepeated =>
    obtain rfl := Option.some.inj h
    exact .repeatedParameter p.name
  | case3 earlier p params hnew hused ih => exact ih h
  | case4 earlier p params hnew ty hused hty =>
    obtain rfl := Option.some.inj h
    exact .inconsistentVariable p.name p.ty ty
  | case5 earlier p params hnew hused ih => exact ih h

theorem Func.build_failsOnly (params : List Param) (body : Term) :
    FailsOnly OfBuilding (build params body) := by
  unfold build
  cases h : paramFault? body.deps [] params with
  | none => trivial
  | some fault => exact ofBuilding_of_paramFault? h

theorem Func.ofBuilding_of_argumentFault? {params : List Param} {args : List Term} {fault : Fault}
    (h : argumentFault? params args = some fault) : fault.OfBuilding := by
  fun_induction argumentFault? params args with
  | case1 p params arg args hty ih => exact ih h
  | case2 p params arg args hty =>
    obtain rfl := Option.some.inj h
    exact .parameterTypeMismatch p.name p.ty arg.ty
  | case3 => cases h

theorem Func.call_failsOnly (f : Func) (args : List Term) : FailsOnly OfBuilding (f.call args) := by
  unfold call
  by_cases hl : args.length = f.arity
  · rw [if_neg (not_not_intro hl)]
    cases h : argumentFault? f.params args with
    | some fault => exact ofBuilding_of_argumentFault? h
    | none => exact (Deps.union_failsOnly _).bind fun deps => trivial
  · rw [if_pos hl]
    exact .argumentCountMismatch f.arity args.length

theorem TypeDecl.ofBuilding_of_branchFault? {decl : TypeDecl} {ty tag : Name}
    {branches : Entries Func} {signature : List Name} {fault : Fault}
    (h : decl.branchFault? ty branches tag signature = some fault) : fault.OfBuilding := by
  unfold branchFault? at h
  cases hb : branches.get? tag with
  | none =>
    rw [hb] at h
    obtain rfl := Option.some.inj h
    exact .missingBranch decl.name tag
  | some f =>
    simp only [hb] at h
    split at h
    · obtain rfl := Option.some.inj h
      exact .branchSignatureMismatch decl.name tag signature f.signature
    · split at h
      · obtain rfl := Option.some.inj h
        exact .resultTypeMismatch ty f.ty
      · cases h

theorem TypeDecl.ofBuilding_of_branchesFault? {decl : TypeDecl} {ty : Name}
    {branches : Entries Func} {fault : Fault} (h : decl.branchesFault? ty branches = some fault) :
    fault.OfBuilding := by
  unfold branchesFault? at h
  split at h
  · next found hfound =>
    obtain rfl := Option.some.inj h
    obtain ⟨c, _, hc⟩ := List.exists_of_findSome?_eq_some hfound
    exact ofBuilding_of_branchFault? hc
  · obtain ⟨tag, _, rfl⟩ := Option.map_eq_some_iff.1 h
    exact .unknownConstructor decl.name tag

theorem Registry.caseOf_failsOnly (ty : Name) (scrutinee : Term) (branches : Entries Func) :
    FailsOnly OfBuilding (R.caseOf ty scrutinee branches) := by
  refine (get_failsOnly ty).bind fun result => (get_failsOnly scrutinee.ty).bind fun decl => ?_
  cases h : decl.branchesFault? result.name branches with
  | some fault => exact TypeDecl.ofBuilding_of_branchesFault? h
  | none => exact (Deps.union_failsOnly _).bind fun deps => trivial

end Builders

/-- What reading a part of a tree reports is reported of the tree. -/
theorem FailsOnly.within {α : Type} {r : Except Fault α} {part : Json}
    (h : FailsOnly (OfReading part) r) (hpart : part.Within j) : FailsOnly (OfReading j) r :=
  h.mono fun _ hfault => hfault.mono hpart

theorem FailsOnly.building {α : Type} {r : Except Fault α} (h : FailsOnly OfBuilding r) :
    FailsOnly (OfReading j) r := h.mono fun _ hfault => .building hfault

namespace Registry

/-- Parameters are read with their function literal in view, which tells where they stand. -/
theorem readParam_failsOnly {params : List Json} {body p : Json} (hp : p ∈ params) :
    FailsOnly (OfReading (.arr [.arr params, body])) (R.readParam p) := by
  cases p with
  | null | bool | num | arr | obj => exact .parameter .self hp (by simp)
  | str s =>
    rw [readParam]
    cases hs : Surface.typedName? s with
    | some parts => exact (typedName_failsOnly hs _).building
    | none =>
      have hparams : (Json.arr params).Within (.arr [.arr params, body]) :=
        Json.within_arr List.mem_cons_self
      exact .literal ((Json.within_arr hp).trans hparams)

theorem readFunc_failsOnly {params items : List Json}
    (hitems : ∀ item ∈ items, FailsOnly (OfReading item) (R.readTerm item)) :
    FailsOnly (OfReading (.arr (.arr params :: items))) (R.readFunc params items) := by
  match items with
  | [] => exact .functionBody .self (by decide)
  | _ :: _ :: _ => exact .functionBody .self (by simp)
  | [body] =>
    have hbody : body.Within (.arr [.arr params, body]) := Json.within_arr (by simp)
    rw [readFunc]
    refine (FailsOnly.mapM fun p hp => readParam_failsOnly hp).bind fun ps => ?_
    refine ((hitems body List.mem_cons_self).within hbody).bind fun b => ?_
    exact (Func.build_failsOnly ps b).building

theorem readTerms_failsOnly {items : List Json}
    (hitems : ∀ item ∈ items, FailsOnly (OfReading item) (R.readTerm item))
    (hj : ∀ item ∈ items, item.Within j) : FailsOnly (OfReading j) (R.readTerms items) := by
  rw [readTerms_eq_mapM]
  exact .mapM fun item hi => (hitems item hi).within (hj item hi)

theorem readBranches_failsOnly {fields : List (String × Json)}
    (hfields : ∀ b ∈ fields, FailsOnly (OfReading b.2) (R.readLiteral b.2))
    (hj : ∀ b ∈ fields, b.2.Within j) : FailsOnly (OfReading j) (R.readBranches fields) := by
  rw [readBranches_eq_mapM]
  exact .mapM fun b hb => ((hfields b hb).within (hj b hb)).bind fun f => trivial

section Forms

variable {head : String} {ty tag : Name} {items : List Json}

theorem readForm_construct_failsOnly (h : Surface.Head.ofString? head = some (.construct ty tag))
    (hterms : ∀ item ∈ items, FailsOnly (OfReading item) (R.readTerm item)) :
    FailsOnly (OfReading (.arr (.str head :: items))) (R.readForm (.str head :: items)) := by
  have htag : tag.isIdentifier = true := (Surface.Head.ofString?_eq_some_iff.1 h).proper.2
  rw [readForm_construct h]
  refine (readTerms_failsOnly hterms fun item hi => ?_).bind fun args => ?_
  · exact Json.within_arr (List.mem_cons_of_mem _ hi)
  · exact (construct_failsOnly htag ty args).building

theorem readForm_call_failsOnly (h : Surface.Head.ofString? head = some (.call ty))
    (hterms : ∀ item ∈ items, FailsOnly (OfReading item) (R.readTerm item))
    (hliterals : ∀ item ∈ items, FailsOnly (OfReading item) (R.readLiteral item)) :
    FailsOnly (OfReading (.arr (.str head :: items))) (R.readForm (.str head :: items)) := by
  rw [readForm.eq_def]
  simp only [h]
  match items with
  | [] => exact .unrecognized .self
  | literal :: args =>
    obtain ⟨_, hargs⟩ := List.forall_mem_cons.1 hterms
    have hwithin : ∀ item ∈ literal :: args, item.Within (.arr (.str head :: literal :: args)) :=
      fun item hi => Json.within_arr (List.mem_cons_of_mem _ hi)
    obtain ⟨hliteral, hrest⟩ := List.forall_mem_cons.1 hwithin
    refine (get_failsOnly ty).building.bind fun decl => ?_
    refine ((hliterals literal List.mem_cons_self).within hliteral).bind fun f => ?_
    refine (readTerms_failsOnly hargs hrest).bind fun args => ?_
    refine (f.call_failsOnly args).building.bind fun t => ?_
    split
    · trivial
    · exact .building (.resultTypeMismatch decl.name t.ty)

theorem readForm_caseOf_failsOnly (h : Surface.Head.ofString? head = some (.caseOf ty))
    (hterms : ∀ item ∈ items, FailsOnly (OfReading item) (R.readTerm item))
    (hfields : ∀ fields, .obj fields ∈ items →
      ∀ b ∈ fields, FailsOnly (OfReading b.2) (R.readLiteral b.2)) :
    FailsOnly (OfReading (.arr (.str head :: items))) (R.readForm (.str head :: items)) := by
  rw [readForm.eq_def]
  simp only [h]
  split
  · next heq => cases heq
  · next heq => cases heq
  · next scrutinee fields _ =>
    have hscrutinee : scrutinee.Within (.arr [.str head, scrutinee, .obj fields]) :=
      Json.within_arr (by simp)
    have hobj : Json.obj fields ∈ [.str head, scrutinee, .obj fields] := by simp
    refine ((hterms scrutinee List.mem_cons_self).within hscrutinee).bind fun t => ?_
    refine (readBranches_failsOnly (hfields fields (by simp)) fun b hb => ?_).bind fun branches => ?_
    · exact Json.within_fields hobj hb
    · exact (caseOf_failsOnly _ t branches).building
  · exact .unrecognized .self
  · next heq => cases heq

end Forms

theorem readForm_failsOnly {items : List Json}
    (hterms : ∀ item ∈ items, FailsOnly (OfReading item) (R.readTerm item))
    (hliterals : ∀ item ∈ items, FailsOnly (OfReading item) (R.readLiteral item))
    (hfields : ∀ fields, .obj fields ∈ items →
      ∀ b ∈ fields, FailsOnly (OfReading b.2) (R.readLiteral b.2)) :
    FailsOnly (OfReading (.arr items)) (R.readForm items) := by
  match items with
  | [] => exact .unrecognized .self
  | first :: rest =>
    obtain ⟨_, hrestTerms⟩ := List.forall_mem_cons.1 hterms
    obtain ⟨_, hrestLiterals⟩ := List.forall_mem_cons.1 hliterals
    cases first with
    | null | bool | num | obj => exact .unrecognized (Json.within_arr List.mem_cons_self)
    | arr params =>
      rw [readForm]
      exact (readFunc_failsOnly hrestTerms).bind fun f => trivial
    | str head =>
      cases hhead : Surface.Head.ofString? head with
      | none =>
        rw [readForm_unknown hhead]
        exact .unrecognized (Json.within_arr List.mem_cons_self)
      | some form =>
        cases form with
        | construct ty tag => exact readForm_construct_failsOnly hhead hrestTerms
        | call ty => exact readForm_call_failsOnly hhead hrestTerms hrestLiterals
        | caseOf ty =>
          exact readForm_caseOf_failsOnly hhead hrestTerms fun fields hf =>
            hfields fields (List.mem_cons_of_mem _ hf)

/-- A term, or a function literal, is read from a tree or is not for a reason that lies in the
tree. -/
theorem read_failsOnly (R : Registry) (j : Json) :
    FailsOnly (OfReading j) (R.readTerm j) ∧ FailsOnly (OfReading j) (R.readLiteral j) := by
  induction j using Json.induct with
  | flat j hj =>
    cases j with
    | arr items => exact absurd rfl (hj items)
    | null | bool | num | obj => exact ⟨.unrecognized .self, .unrecognized .self⟩
    | str s =>
      refine ⟨?_, .unrecognized .self⟩
      rw [readTerm]
      cases hs : Surface.typedName? s with
      | some parts => exact (typedName_failsOnly hs _).building
      | none => exact .literal .self
  | arr items hitems hfields =>
    have hterms := fun item hi => (hitems item hi).1
    refine ⟨?_, ?_⟩
    · rw [readTerm]
      exact readForm_failsOnly hterms (fun item hi => (hitems item hi).2) fun fields hf b hb =>
        (hfields fields hf b hb).2
    · rw [readLiteral.eq_def]
      split
      · next params rest heq =>
        obtain rfl := Json.arr.inj heq
        exact readFunc_failsOnly fun item hi => hterms item (List.mem_cons_of_mem _ hi)
      · exact .unrecognized .self

theorem value_failsOnly (ty tag : Name) (args : List Value) :
    FailsOnly (OfReadingValue j) (R.value ty tag args) := by
  refine .intro fun fault h => ?_
  obtain rfl | ⟨name, rfl⟩ | ⟨name, expected, got, rfl⟩ | ⟨name, index, expected, got, rfl⟩ :=
    value_eq_error h
  · exact .unknownType ty
  · exact .unknownConstructor name tag
  · exact .arityMismatch name tag expected got
  · exact .argumentTypeMismatch name tag index expected got

theorem readValue_failsOnly (R : Registry) (j : Json) :
    FailsOnly (OfReadingValue j) (R.readValue j) := by
  induction j using Json.induct with
  | flat j hj =>
    cases j with
    | arr items => exact absurd rfl (hj items)
    | null | bool | num | str | obj => exact .unrecognized .self
  | arr items hitems _ =>
    match items with
    | [] => exact .unrecognized .self
    | first :: rest =>
      obtain ⟨_, hrest⟩ := List.forall_mem_cons.1 hitems
      cases first with
      | null | bool | num | arr | obj => exact .unrecognized (Json.within_arr List.mem_cons_self)
      | str head =>
        rw [readValue]
        cases hhead : Surface.typeAndTag? head with
        | none => exact .unrecognized (Json.within_arr List.mem_cons_self)
        | some parts =>
          have hargs : FailsOnly (OfReadingValue (.arr (.str head :: rest))) (R.readValues rest) := by
            rw [readValues_eq_mapM]
            refine .mapM fun item hi => (hrest item hi).mono fun _ hfault => ?_
            exact hfault.mono (Json.within_arr (List.mem_cons_of_mem _ hi))
          exact hargs.bind fun args => value_failsOnly parts.1 parts.2 args

/-- Reading a term never reports a name that is no identifier, nor a fault of values or of running;
what it reports of the tree is a part of it, told by its compact text. Reading a value reports a part
of the tree, or that the value does not fit the registry. -/
theorem reading_faults_are_static_and_point_into_the_tree (R : Registry) (j : Json) :
    (∀ fault, R.readTerm j = .error fault →
      ((∀ name, fault ≠ .invalidName name) ∧
        (∀ ty tag expected got, fault ≠ .arityMismatch ty tag expected got) ∧
        (∀ ty tag index expected got, fault ≠ .argumentTypeMismatch ty tag index expected got) ∧
        (∀ name expected found, fault ≠ .unsatisfiedDependency name expected found) ∧
        ∀ limit, fault ≠ .depthExceeded limit) ∧
      (∀ head, fault = .unrecognized head →
        head.Within j ∧ fault.message = "don't know how to parse " ++ head.text) ∧
      (∀ literal, fault = .malformedVariable literal →
        (∃ s, literal = .str s ∧ literal.Within j ∧
          fault.message = "argument does not match 'name: Type': " ++ s) ∨
        (∀ s, literal ≠ .str s) ∧
          (∃ params body, (Json.arr [.arr params, body]).Within j ∧ literal ∈ params) ∧
          fault.message = "argument does not match 'name: Type': " ++ literal.text) ∧
      ∀ got, fault = .functionBody got →
        got ≠ 1 ∧ ∃ params items, (Json.arr (.arr params :: items)).Within j ∧
          (Json.arr params :: items).length = got + 1) ∧
    ∀ fault, R.readValue j = .error fault →
      (∃ head : Json, fault = .unrecognized head ∧ head.Within j ∧
        fault.message = "don't know how to parse " ++ head.text) ∨
      (∃ name, fault = .unknownType name) ∨
      (∃ ty tag, fault = .unknownConstructor ty tag) ∨
      (∃ ty tag expected got, fault = .arityMismatch ty tag expected got) ∨
      ∃ ty tag index expected got, fault = .argumentTypeMismatch ty tag index expected got := by
  refine ⟨fun fault h => ?_, fun fault h => ?_⟩
  · have hfault := (read_failsOnly R j).1.fault h
    refine ⟨hfault.static, ?_, ?_, ?_⟩
    · rintro head rfl
      exact ⟨hfault.head_within, rfl⟩
    · rintro literal rfl
      obtain ⟨s, rfl, within⟩ | ⟨odd, hparam⟩ := hfault.literal_within
      · exact .inl ⟨s, rfl, within, rfl⟩
      · have hmessage : message (.malformedVariable literal) =
            "argument does not match 'name: Type': " ++ literal.plain := rfl
        rw [Json.plain_of_ne_str odd] at hmessage
        exact .inr ⟨odd, hparam, hmessage⟩
    · rintro got rfl
      exact hfault.body_within
  · cases (readValue_failsOnly R j).fault h with
    | unrecognized within => exact .inl ⟨_, rfl, within, rfl⟩
    | unknownType name => exact .inr (.inl ⟨name, rfl⟩)
    | unknownConstructor ty tag => exact .inr (.inr (.inl ⟨ty, tag, rfl⟩))
    | arityMismatch ty tag expected got =>
      exact .inr (.inr (.inr (.inl ⟨ty, tag, expected, got, rfl⟩)))
    | argumentTypeMismatch ty tag index expected got =>
      exact .inr (.inr (.inr (.inr ⟨ty, tag, index, expected, got, rfl⟩)))

/-- A parameter that is a number is reported from its parameter list, a function without a body by its
length, and a number in the place of a value as it is. -/
theorem parts_at_fault_stand_in_their_trees :
    (∃ params body,
      (Json.arr [.arr params, body]).Within
        (.arr [.str "Nat.next", .arr [.arr [.num (.int 7)], .str "n: Nat"]]) ∧
      .num (.int 7) ∈ params) ∧
    (∃ params items,
      (Json.arr (.arr params :: items)).Within (.arr [.str "Nat.next", .arr [.arr []]]) ∧
      (Json.arr params :: items).length = 1) ∧
    (Json.num (.int 7)).Within (.arr [.str "Nat.next", .num (.int 7)]) := by
  have hparam : naturals.readTerm (.arr [.str "Nat.next", .arr [.arr [.num (.int 7)], .str "n: Nat"]]) =
      .error (.malformedVariable (.num (.int 7))) := rfl
  have hbody : naturals.readTerm (.arr [.str "Nat.next", .arr [.arr []]]) =
      .error (.functionBody 0) := rfl
  have hvalue : naturals.readValue (.arr [.str "Nat.next", .num (.int 7)]) =
      .error (.unrecognized (.num (.int 7))) := rfl
  refine ⟨?_, ?_, ?_⟩
  · obtain ⟨_, _, hliteral, _⟩ :=
      (reading_faults_are_static_and_point_into_the_tree naturals _).1 _ hparam
    obtain ⟨s, hs, _⟩ | ⟨_, hwithin, _⟩ := hliteral _ rfl
    · cases hs
    · exact hwithin
  · obtain ⟨_, _, _, hgot⟩ :=
      (reading_faults_are_static_and_point_into_the_tree naturals _).1 _ hbody
    exact (hgot 0 rfl).2
  · obtain ⟨head, hhead, hwithin, _⟩ | ⟨_, h⟩ | ⟨_, _, h⟩ | ⟨_, _, _, _, h⟩ | ⟨_, _, _, _, _, h⟩ :=
      (reading_faults_are_static_and_point_into_the_tree naturals _).2 _ hvalue
    · cases hhead
      exact hwithin
    all_goals cases h

end Registry

end DataCalculus
