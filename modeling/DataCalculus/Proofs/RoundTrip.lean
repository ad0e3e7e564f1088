import DataCalculus.Proofs.BuiltTerms
import DataCalculus.Proofs.RegistryCheck
import DataCalculus.Proofs.Spelling
import DataCalculus.Surface.Printer
import DataCalculus.Surface.Reader

/-!
# Reading back what was written

The surface form of a built term is read back as that term, stored types and dependencies included,
unless a constructor in it has a tag that is no identifier. Then reading stops at the first such
constructor. Only constants bring in such tags, and a checked registry has none.
-/

namespace DataCalculus

set_option autoImplicit false

variable {R : Registry}

/-- The type and the tag of a constructor node. -/
def Term.constructor? : Term → Option (Name × Name)
  | .construct ty tag _ _ => some (ty, tag)
  | _ => none

/-- The types and tags of the constructors in a term, in the order in which they are met. -/
def Term.constructors (t : Term) : List (Name × Name) := t.subterms.filterMap constructor?

def Func.constructors (f : Func) : List (Name × Name) := f.subterms.filterMap Term.constructor?

namespace Term

theorem constructors_free (name ty : Name) : (free name ty).constructors = [] := rfl

theorem constructors_construct (ty tag : Name) (args : List Term) (deps : Deps) :
    (construct ty tag args deps).constructors = (ty, tag) :: args.flatMap constructors := by
  rw [constructors, subterms, subtermsAll_eq_flatMap, List.filterMap_cons, List.filterMap_flatMap]
  rfl

theorem constructors_func (f : Func) : (func f).constructors = f.constructors := by
  rw [constructors, subterms, List.filterMap_cons]
  rfl

theorem constructors_call (f : Func) (args : List Term) (deps : Deps) :
    (call f args deps).constructors = f.constructors ++ args.flatMap constructors := by
  rw [constructors, subterms, subtermsAll_eq_flatMap, List.filterMap_cons, List.filterMap_append,
    List.filterMap_flatMap]
  rfl

theorem constructors_caseOf (ty : Name) (scrutinee : Term) (branches : List (Name × Func))
    (deps : Deps) : (caseOf ty scrutinee branches deps).constructors =
      scrutinee.constructors ++ branches.flatMap fun b => b.2.constructors := by
  rw [constructors, subterms, Func.subtermsAll_eq_flatMap, List.filterMap_cons,
    List.filterMap_append, List.filterMap_flatMap]
  rfl

end Term

/-- What reading gives for something written with these constructors: the thing itself, or the
fault of the first constructor whose tag is no identifier. -/
def readBack {α : Type} : List (Name × Name) → α → Except Fault α
  | [], a => .ok a
  | (ty, tag) :: rest, a =>
    if tag.isIdentifier then readBack rest a
    else .error (.unrecognized (.str (Surface.Head.construct ty tag).spelling))

section ReadBack

variable {α β : Type}

theorem readBack_bind {first second : List (Name × Name)} {a : α} {b : β}
    {next : α → Except Fault β} (h : next a = readBack second b) :
    readBack first a >>= next = readBack (first ++ second) b := by
  induction first with
  | nil => exact h
  | cons c first ih =>
    rw [List.cons_append, readBack, readBack]
    by_cases ht : c.2.isIdentifier = true
    · rw [if_pos ht, if_pos ht]
      exact ih
    · rw [if_neg ht, if_neg ht]
      rfl

theorem readBack_bind_ok {first : List (Name × Name)} {a : α} {b : β} {next : α → Except Fault β}
    (h : next a = .ok b) : readBack first a >>= next = readBack first b := by
  have hb : readBack first a >>= next = readBack (first ++ []) b := readBack_bind h
  rw [hb, List.append_nil]

theorem readBack_eq_ok {cs : List (Name × Name)} (h : ∀ c ∈ cs, c.2.isIdentifier = true) (a : α) :
    readBack cs a = .ok a := by
  induction cs with
  | nil => rfl
  | cons c cs ih =>
    obtain ⟨hc, hcs⟩ := List.forall_mem_cons.1 h
    rw [readBack, if_pos hc]
    exact ih hcs

theorem readBack_eq_error {before after : List (Name × Name)} {ty tag : Name}
    (h : ∀ c ∈ before, c.2.isIdentifier = true) (ht : tag.isIdentifier = false) (a : α) :
    readBack (before ++ (ty, tag) :: after) a =
      .error (.unrecognized (.str (Surface.Head.construct ty tag).spelling)) := by
  induction before with
  | nil => simp [readBack, ht]
  | cons c before ih =>
    obtain ⟨hc, hbefore⟩ := List.forall_mem_cons.1 h
    rw [List.cons_append, readBack, if_pos hc]
    exact ih hbefore

theorem exists_first_odd {cs : List (Name × Name)} (h : ¬ ∀ c ∈ cs, c.2.isIdentifier = true) :
    ∃ before ty tag after, cs = before ++ (ty, tag) :: after ∧
      (∀ c ∈ before, c.2.isIdentifier = true) ∧ tag.isIdentifier = false := by
  cases hf : cs.find? fun c => !c.2.isIdentifier with
  | none =>
    rw [List.find?_eq_none] at hf
    exact absurd (fun c hc => by simpa using hf c hc) h
  | some c =>
    obtain ⟨hc, before, after, he, hbefore⟩ := List.find?_eq_some_iff_append.1 hf
    refine ⟨before, c.1, c.2, after, he, ?_, by simpa using hc⟩
    intro b hb
    simpa using hbefore b hb

end ReadBack

namespace Registry

theorem readTerms_toJsons {args : List Term}
    (h : ∀ arg ∈ args, R.readTerm arg.toJson = readBack arg.constructors arg) :
    R.readTerms (Term.toJsons args) = readBack (args.flatMap Term.constructors) args := by
  induction args with
  | nil => rfl
  | cons arg args ih =>
    obtain ⟨harg, hargs⟩ := List.forall_mem_cons.1 h
    rw [Term.toJsons, readTerms, List.flatMap_cons, harg, ih hargs]
    exact readBack_bind (readBack_bind_ok rfl)

theorem readBranches_toFields {branches : List (Name × Func)}
    (h : ∀ b ∈ branches, R.readLiteral b.2.toJson = readBack b.2.constructors b.2) :
    R.readBranches (Func.toFields branches) =
      readBack (branches.flatMap fun b => b.2.constructors) branches := by
  induction branches with
  | nil => rfl
  | cons b branches ih =>
    obtain ⟨hb, hbranches⟩ := List.forall_mem_cons.1 h
    obtain ⟨tag, f⟩ := b
    rw [Func.toFields, readBranches, List.flatMap_cons, hb, ih hbranches]
    exact readBack_bind (readBack_bind_ok rfl)

theorem readParam_toJson (hR : R.Reachable) {p : Param} (hi : p.name.isIdentifier = true)
    {decl : TypeDecl} (hd : R.types.get? p.ty = some decl) : R.readParam p.toJson = .ok p := by
  obtain ⟨hname, hty⟩ := hR.name_eq hd
  rw [Param.toJson, Param.display, readParam, Surface.typedName?_spelled hi hty]
  refine param_eq_ok.2 ⟨hi, decl, hd, ?_⟩
  rw [hname]

theorem mapM_readParam (hR : R.Reachable) {params : List Param}
    (h : ∀ p ∈ params, p.name.isIdentifier = true ∧ ∃ decl, R.types.get? p.ty = some decl) :
    (params.map Param.toJson).mapM R.readParam = .ok params := by
  induction params with
  | nil => rfl
  | cons p params ih =>
    obtain ⟨⟨hi, decl, hd⟩, hparams⟩ := List.forall_mem_cons.1 h
    rw [List.map_cons, List.mapM_cons, readParam_toJson hR hi hd, ih hparams]
    rfl

section Forms

variable {head : String} {ty tag : Name}

theorem readForm_unknown (h : Surface.Head.ofString? head = none) (items : List Json) :
    R.readForm (.str head :: items) = .error (.unrecognized (.str head)) := by
  rw [readForm.eq_def]
  simp only [h]

theorem readForm_construct (h : Surface.Head.ofString? head = some (.construct ty tag))
    (items : List Json) :
    R.readForm (.str head :: items) = R.readTerms items >>= R.construct ty tag := by
  rw [readForm.eq_def]
  simp only [h]

theorem readForm_call (h : Surface.Head.ofString? head = some (.call ty)) {decl : TypeDecl}
    (hd : R.types.get? ty = some decl) (literal : Json) (items : List Json) :
    R.readForm (.str head :: literal :: items) = (do
      let f ← R.readLiteral literal
      let args ← R.readTerms items
      let t ← f.call args
      if t.ty = decl.name then return t else .error (.resultTypeMismatch decl.name t.ty)) := by
  rw [readForm.eq_def]
  simp only [h, get_eq_ok.2 hd]
  rfl

theorem readForm_caseOf (h : Surface.Head.ofString? head = some (.caseOf ty)) (scrutinee : Json)
    (fields : List (String × Json)) :
    R.readForm [.str head, scrutinee, .obj fields] = (do
      let t ← R.readTerm scrutinee
      let branches ← R.readBranches fields
      R.caseOf ty t branches) := by
  rw [readForm.eq_def]
  simp only [h]

end Forms

/-- A function literal stands as a term and is read as one. -/
theorem readTerm_func_toJson (f : Func) :
    R.readTerm f.toJson = R.readLiteral f.toJson >>= fun f => pure (.func f) := by
  obtain ⟨params, body, deps⟩ := f
  rw [Func.toJson, readTerm, readForm, readLiteral]

/-- Reading what was written, for terms and for function literals. -/
theorem read_toJson (hR : R.Reachable) :
    (∀ t : Term, t.Built R → R.readTerm t.toJson = readBack t.constructors t) ∧
      ∀ f : Func, f.Built R → R.readLiteral f.toJson = readBack f.constructors f := by
  refine Term.induct ?free ?construct ?func ?call ?caseOf ?mk
  case free =>
    intro name ty h
    obtain ⟨hi, decl, hd⟩ := h.checked hR
    obtain ⟨hname, hty⟩ := hR.name_eq hd
    rw [Term.toJson, readTerm, Surface.typedName?_spelled hi hty, Term.constructors_free]
    refine free_eq_ok.2 ⟨hi, decl, hd, ?_⟩
    rw [hname]
  case construct =>
    intro ty tag args deps ih h
    obtain ⟨⟨decl, signature, hd, hs⟩, hargs, hu⟩ := h.checked hR
    obtain ⟨hname, hty⟩ := hR.name_eq hd
    have hhead := Surface.Head.ofString?_construct hty tag
    rw [Term.toJson, readTerm, Term.constructors_construct, readBack]
    by_cases ht : tag.isIdentifier = true
    · have hbuild : R.construct ty tag args = .ok (.construct ty tag args deps) :=
        construct_eq_ok.2 ⟨decl, signature, deps, hd, hs, ht, hu, by rw [hname]⟩
      rw [if_pos ht] at hhead ⊢
      rw [readForm_construct hhead, readTerms_toJsons fun arg ha => ih arg ha (hargs arg ha)]
      exact readBack_bind_ok hbuild
    · rw [if_neg ht] at hhead ⊢
      exact readForm_unknown hhead _
  case func =>
    intro f ih h
    rw [Term.toJson, readTerm_func_toJson, ih (h.checked hR), Term.constructors_func]
    exact readBack_bind_ok rfl
  case call =>
    intro f args deps ihf iha h
    obtain ⟨hf, hargs, hsig, hu⟩ := h.checked hR
    obtain ⟨decl, hd⟩ : ∃ decl, R.types.get? f.ty = some decl := h.ty_declared hR
    obtain ⟨hname, hty⟩ := hR.name_eq hd
    have hbuild : f.call args = .ok (.call f args deps) := Func.call_eq_ok.2 ⟨hsig, deps, hu, rfl⟩
    have hresult : (Term.call f args deps).ty = decl.name := hname.symm
    rw [Term.toJson, readTerm, readForm_call (Surface.Head.ofString?_call hty) hd, ihf hf,
      readTerms_toJsons fun arg ha => iha arg ha (hargs arg ha), Term.constructors_call]
    refine readBack_bind (readBack_bind_ok ?_)
    rw [hbuild]
    exact if_pos hresult
  case caseOf =>
    intro ty scrutinee branches deps iht ihb h
    obtain ⟨ht, hbranches, hordered, ⟨result, hr⟩, ⟨decl, hd, hc⟩, hu⟩ := h.checked hR
    obtain ⟨hname, hty⟩ := hR.name_eq hr
    have hbuild : R.caseOf ty scrutinee branches = .ok (.caseOf ty scrutinee branches deps) := by
      refine (caseOf_eq_ok hordered).2 ⟨result, decl, deps, hr, hd, ?_, hu, ?_⟩
      · rw [hname]
        exact hc
      · rw [hname]
    rw [Term.toJson, readTerm, readForm_caseOf (Surface.Head.ofString?_caseOf hty), iht ht,
      readBranches_toFields fun b hb => ihb b hb (hbranches b hb), Term.constructors_caseOf]
    exact readBack_bind (readBack_bind_ok hbuild)
  case mk =>
    intro params body deps ih h
    have hc := h.checked
    have hbuild : Func.build params body = .ok (.mk params body deps) :=
      Func.build_eq_ok.2 ⟨hc.distinct, hc.used, congrArg (Func.mk params body) hc.deps_eq⟩
    have hparams : (params.map Param.toJson).mapM R.readParam = .ok params :=
      mapM_readParam hR hc.declared
    rw [Func.toJson, readLiteral, readFunc, hparams]
    change R.readTerm body.toJson >>= _ = _
    rw [ih hc.body]
    exact readBack_bind_ok hbuild

end Registry

/-- Over a checked registry the constructors in a built term have identifiers as tags. -/
theorem Term.Built.constructors_isIdentifier (hR : R.Reachable) (hcheck : R.check = .ok ())
    {t : Term} (ht : t.Built R) : ∀ c ∈ t.constructors, c.2.isIdentifier = true := by
  intro c hc
  obtain ⟨s, hs, hcs⟩ := List.mem_filterMap.1 hc
  cases s with
  | construct ty tag args deps =>
    obtain rfl := Option.some.inj hcs
    obtain ⟨⟨decl, signature, hd, hsig⟩, _⟩ := (ht.of_mem_subterms hR hs).checked hR
    exact ((Registry.check_eq_ok hR).1 hcheck ty decl tag signature hd hsig).1
  | free | func | call | caseOf => cases hcs

/-- The surface form of a built term is read back as the term when all its constructors have
identifiers as tags, as over a checked registry they have; otherwise reading stops at the first
constructor that has not, and reports its head. -/
theorem readTerm_toJson (hR : R.Reachable) {t : Term} (ht : t.Built R) :
    (R.check = .ok () → ∀ c ∈ t.constructors, c.2.isIdentifier = true) ∧
    ((∀ c ∈ t.constructors, c.2.isIdentifier = true) → R.readTerm t.toJson = .ok t) ∧
    ((¬ ∀ c ∈ t.constructors, c.2.isIdentifier = true) →
      ∃ (before : List (Name × Name)) (ty tag : Name) (after : List (Name × Name)) (fault : Fault),
        t.constructors = before ++ (ty, tag) :: after ∧
        (∀ c ∈ before, c.2.isIdentifier = true) ∧ tag.isIdentifier = false ∧
        R.readTerm t.toJson = .error fault ∧ fault = .unrecognized (.str (ty ++ "." ++ tag)) ∧
        fault.message = "don't know how to parse " ++ (Json.str (ty ++ "." ++ tag)).text) := by
  have hread := (Registry.read_toJson hR).1 t ht
  refine ⟨fun hcheck => ht.constructors_isIdentifier hR hcheck, ?_, ?_⟩
  · intro h
    rw [hread, readBack_eq_ok h]
  · intro h
    obtain ⟨before, ty, tag, after, he, hbefore, htag⟩ := exists_first_odd h
    refine ⟨before, ty, tag, after, _, he, hbefore, htag, ?_, rfl, rfl⟩
    rw [hread, he, readBack_eq_error hbefore htag]
    rfl

/-- A type with one constructor, whose tag holds a point. -/
def Registry.pointed : Registry :=
  ⟨.single "Unit" ⟨"Unit", .single "a.b" []⟩, .single "Unit" ()⟩

theorem predecessor_reads_back_and_point_does_not :
    Registry.naturals.readTerm Term.predecessor.toJson = .ok .predecessor ∧
    Registry.pointed.readTerm (Term.constant (.mk "Unit" "a.b" [])).toJson =
      .error (.unrecognized (.str "Unit.a.b")) := by
  have hpointed : Registry.ofDecls [("Unit", [("a.b", [])])] = .ok .pointed := rfl
  have hvalue : Registry.pointed.value "Unit" "a.b" [] = .ok (.mk "Unit" "a.b" []) := rfl
  have hconstant : (Term.constant (.mk "Unit" "a.b" [])).Built .pointed :=
    .constant (.mk (fun arg h => absurd h List.not_mem_nil) hvalue)
  constructor
  · refine (readTerm_toJson Registry.naturals_reachable Term.predecessor_built).2.1 ?_
    decide
  · obtain ⟨before, ty, tag, after, fault, he, hbefore, _, hread, hfault, _⟩ :=
      (readTerm_toJson (Registry.reachable_of_ofDecls hpointed) hconstant).2.2 (by decide)
    rw [hread, hfault]
    change [("Unit", "a.b")] = _ at he
    cases before with
    | nil =>
      obtain ⟨rfl, rfl⟩ : "Unit" = ty ∧ "a.b" = tag := by simpa using (List.cons.inj he).1
      rfl
    | cons b before => simp at he

end DataCalculus
