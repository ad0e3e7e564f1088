import DataCalculus.Proofs.Grammar
import DataCalculus.Proofs.Reading

/-!
# Reading accepts the surface language

A tree is read as a term exactly when it is well-formed over the registry. Along the way, what a
tree says about itself (its static type, its free variables and, for a function literal, its
signature) is what the term that was read from it stores.
-/

namespace DataCalculus

set_option autoImplicit false

namespace Surface

variable {j body : Json} {t : Term} {s : String} {params items : List Json} {args : List Term}

/-- The type and the free variables of the tree are those that the term stores. -/
structure Reflects (j : Json) (t : Term) : Prop where
  ty_iff : ∀ T, HasType j T ↔ T = t.ty
  free_iff : ∀ x T, FreeIn x T j ↔ t.deps.get? x = some T

/-- For a function literal the signature as well. -/
structure ReflectsFunc (j : Json) (f : Func) : Prop extends Reflects j (.func f) where
  literal : IsLiteral j
  signature_iff : ∀ signature T, HasSignature j signature T ↔ signature = f.signature ∧ T = f.ty

/-- The free variables of the tree are those of the parts together. -/
def Gathers (j : Json) (parts : List Deps) : Prop :=
  ∀ x T, FreeIn x T j ↔ ∃ part ∈ parts, part.get? x = some T

theorem Gathers.consistent_iff {parts : List Deps} (h : Gathers j parts) :
    Consistent j ↔ ∃ deps, Deps.union parts = .ok deps := by
  rw [Deps.exists_union_iff]
  unfold Consistent Deps.Agree
  simp only [h _ _]

theorem Gathers.free_iff {parts : List Deps} {deps : Deps} (h : Gathers j parts)
    (hu : Deps.union parts = .ok deps) (x T : Name) : FreeIn x T j ↔ deps.get? x = some T := by
  rw [h x T, Deps.union_eq_ok.1 hu]

theorem exists_mem_iff {α β : Type} {p : α → Prop} {q : β → Prop} {as : List α} {bs : List β}
    (h : List.Forall₂ (fun a b => p a ↔ q b) as bs) : (∃ a ∈ as, p a) ↔ ∃ b ∈ bs, q b := by
  induction h with
  | nil => simp
  | cons hfirst _ ih => rw [List.exists_mem_cons_iff, List.exists_mem_cons_iff, hfirst, ih]

theorem gathers_construct (s : String) (h : List.Forall₂ Reflects items args) :
    Gathers (.arr (.str s :: items)) (args.map Term.deps) := by
  intro x T
  rw [freeIn_headed, Deps.exists_part_map]
  exact exists_mem_iff (h.imp fun j t hj => hj.free_iff x T)

theorem gathers_call (s : String) {literal : Json} {f : Func}
    (hf : ReflectsFunc literal f) (h : List.Forall₂ Reflects items args) :
    Gathers (.arr (.str s :: literal :: items)) (f.deps :: args.map Term.deps) :=
  gathers_construct s (List.Forall₂.cons hf.toReflects h)

theorem gathers_caseOf (s : String) {scrutinee : Json} {fields : List (String × Json)}
    {branches : Entries Func} (ht : Reflects scrutinee t)
    (h : List.Forall₂ (fun a b => a.1 = b.1 ∧ ReflectsFunc a.2 b.2) fields branches) :
    Gathers (.arr [.str s, scrutinee, .obj fields])
      (t.deps :: branches.map fun b => b.2.deps) := by
  intro x T
  have hbranches : FreeIn x T (.obj fields) ↔
      ∃ part ∈ branches.map fun b => b.2.deps, part.get? x = some T := by
    rw [freeIn_obj, Deps.exists_part_map]
    exact exists_mem_iff (h.imp fun a b hab => hab.2.free_iff x T)
  rw [freeIn_headed, List.exists_mem_cons_iff, List.exists_mem_cons_iff, ht.free_iff, hbranches,
    List.exists_mem_cons_iff]
  simp

theorem forall₂_hasType_iff (h : List.Forall₂ Reflects items args) {signature : List Name} :
    List.Forall₂ HasType items signature ↔ args.map Term.ty = signature := by
  induction h generalizing signature with
  | nil => simp [eq_comm]
  | cons hfirst _ ih =>
    simp only [List.forall₂_cons_left_iff, hfirst.ty_iff, ih, List.map_cons]
    constructor
    · intro ht
      obtain ⟨ty, rest, hty, hrest, he⟩ := ht
      rw [he, hty, hrest]
    · intro he
      exact ⟨_, _, rfl, rfl, he.symm⟩

/-! ## The forms -/

theorem reflects_free {x T : Name} (h : SpellsVariable s x T) : Reflects (.str s) (.free x T) := by
  constructor
  · intro U
    rw [hasType_str, Term.ty]
    constructor
    · intro hU
      obtain ⟨y, hy⟩ := hU
      exact (hy.unique h).2
    · intro hU
      exact ⟨x, hU ▸ h⟩
  · intro y U
    rw [freeIn_str, Term.deps, Table.get?_eq_some_iff]
    simp only [Table.single, List.mem_singleton, Prod.mk.injEq]
    constructor
    · intro hy
      exact hy.unique h
    · intro hy
      obtain ⟨hy, hU⟩ := hy
      rw [hy, hU]
      exact h

theorem reflects_construct {T tag : Name} {deps : Deps} (hs : SpellsHead s (.construct T tag))
    (h : List.Forall₂ Reflects items args) (hu : Deps.union (args.map Term.deps) = .ok deps) :
    Reflects (.arr (.str s :: items)) (.construct T tag args deps) :=
  ⟨fun _ => hasType_headed hs, (gathers_construct s h).free_iff hu⟩

theorem reflects_call {T : Name} {literal : Json} {f : Func} {deps : Deps}
    (hs : SpellsHead s (.call T)) (hf : ReflectsFunc literal f) (hT : f.ty = T)
    (h : List.Forall₂ Reflects items args)
    (hu : Deps.union (f.deps :: args.map Term.deps) = .ok deps) :
    Reflects (.arr (.str s :: literal :: items)) (.call f args deps) := by
  refine ⟨?_, (gathers_call s hf h).free_iff hu⟩
  intro U
  rw [hasType_headed hs, Term.ty, hT, Head.ty]

theorem reflects_caseOf {T : Name} {scrutinee : Json} {fields : List (String × Json)}
    {branches : Entries Func} {deps : Deps} (hs : SpellsHead s (.caseOf T))
    (ht : Reflects scrutinee t)
    (h : List.Forall₂ (fun a b => a.1 = b.1 ∧ ReflectsFunc a.2 b.2) fields branches)
    (hu : Deps.union (t.deps :: branches.map fun b => b.2.deps) = .ok deps) :
    Reflects (.arr [.str s, scrutinee, .obj fields]) (.caseOf T t branches deps) :=
  ⟨fun _ => hasType_headed hs, (gathers_caseOf s ht h).free_iff hu⟩

theorem HasSignature.isLiteral {signature : List Name} {T : Name}
    (h : HasSignature j signature T) : IsLiteral j := by
  obtain ⟨params, body, _, rfl, _⟩ := h
  exact ⟨params, body, rfl⟩

theorem SpellsParam.unique {p q : Param} (hp : SpellsParam j p) (hq : SpellsParam j q) : p = q := by
  obtain ⟨s, rfl, hp⟩ := hp
  obtain ⟨s', he, hq⟩ := hq
  obtain rfl := Json.str.inj he
  obtain ⟨hname, hty⟩ := hp.unique hq
  cases p
  cases q
  rw [Param.mk.injEq]
  exact ⟨hname, hty⟩

theorem SpellsParam.binds_iff {p : Param} (h : SpellsParam j p) (x : Name) :
    (∃ U, SpellsParam j ⟨x, U⟩) ↔ p.name = x := by
  constructor
  · intro hU
    obtain ⟨U, hU⟩ := hU
    rw [h.unique hU]
  · intro hx
    exact ⟨p.ty, hx ▸ h⟩

theorem unbound_iff {ps : List Param} (h : List.Forall₂ SpellsParam params ps) (x : Name) :
    (∀ p ∈ params, ∀ U, ¬ SpellsParam p ⟨x, U⟩) ↔ x ∉ ps.map Param.name := by
  have hbound : (∃ p ∈ params, ∃ U, SpellsParam p ⟨x, U⟩) ↔ ∃ p ∈ ps, p.name = x :=
    exists_mem_iff (h.imp fun j p hp => hp.binds_iff x)
  rw [List.mem_map, ← hbound]
  simp only [not_exists, not_and]

theorem reflects_literal {ps : List Param} (h : List.Forall₂ SpellsParam params ps)
    (hb : Reflects body t) : ReflectsFunc (.arr [.arr params, body])
      (.mk ps t (t.deps.without (ps.map Param.name))) := by
  constructor
  · constructor
    · intro T
      rw [hasType_literal, hb.ty_iff, Term.ty, Func.ty]
    · intro x T
      rw [freeIn_literal, unbound_iff h, hb.free_iff, Term.deps, Func.deps_mk,
        Table.get?_without_eq_some]
  · exact ⟨params, body, rfl⟩
  · intro signature T
    rw [Func.ty, Func.signature, Func.params_mk, ← hb.ty_iff]
    constructor
    · intro hs
      obtain ⟨params', body', qs, he, hqs, hsignature, hT⟩ := hs
      simp only [Json.arr.injEq, List.cons.injEq, and_true] at he
      obtain ⟨rfl, rfl⟩ := he
      have hunique : Relator.RightUnique SpellsParam := fun _ _ _ hp hq => hp.unique hq
      obtain rfl := List.right_unique_forall₂' hunique h hqs
      exact ⟨hsignature.symm, hT⟩
    · intro hs
      obtain ⟨hsignature, hT⟩ := hs
      exact ⟨params, body, ps, rfl, h, hsignature.symm, hT⟩

section Branches

variable {α β : Type} {r : α → β → Prop} {as : Entries α} {bs : Entries β}

theorem exists_get? (h : List.Forall₂ (fun a b => a.1 = b.1 ∧ r a.2 b.2) as bs) {key : Name} {a : α}
    (ha : as.get? key = some a) : ∃ b, bs.get? key = some b ∧ r a b := by
  induction h with
  | nil => cases ha
  | @cons first first' as bs hfirst _ ih =>
    obtain ⟨hkey, hr⟩ := hfirst
    rw [Entries.get?] at ha
    rw [Entries.get?, ← hkey]
    by_cases hk : key = first.1
    · rw [if_pos hk] at ha ⊢
      obtain rfl := Option.some.inj ha
      exact ⟨first'.2, rfl, hr⟩
    · rw [if_neg hk] at ha ⊢
      exact ih ha

theorem keys_eq (h : List.Forall₂ (fun a b => a.1 = b.1 ∧ r a.2 b.2) as bs) : as.keys = bs.keys := by
  induction h with
  | nil => rfl
  | @cons a b as bs hfirst _ ih =>
    have hkeys : a.1 :: Entries.keys as = b.1 :: Entries.keys bs :=
      congrArg₂ List.cons hfirst.1 ih
    exact hkeys

/-- The branches in the tree fit the declaration exactly when the branches that were read do. -/
theorem branchesFault?_eq_none_iff_covered {decl : TypeDecl} {T : Name} {fields : Entries Json}
    {branches : Entries Func}
    (h : List.Forall₂ (fun a b => a.1 = b.1 ∧ ReflectsFunc a.2 b.2) fields branches) :
    decl.branchesFault? T branches = none ↔
      (∀ tag, tag ∈ fields.keys ↔ decl.hasConstructor tag = true) ∧
      ∀ tag branch signature, fields.get? tag = some branch →
        decl.constructors.get? tag = some signature → HasSignature branch signature T := by
  rw [TypeDecl.branchesFault?_eq_none_iff]
  constructor
  · intro hfits
    obtain ⟨hall, hknown⟩ := hfits
    constructor
    · intro tag
      rw [keys_eq h, TypeDecl.hasConstructor_iff]
      constructor
      · intro htag
        obtain ⟨f, hf⟩ := Entries.mem_keys_iff.1 htag
        exact Option.ne_none_iff_exists'.1 (hknown (tag, f) (Entries.mem_of_get? hf))
      · intro hs
        obtain ⟨signature, hs⟩ := hs
        obtain ⟨f, hf, _⟩ := hall tag signature hs
        exact Entries.mem_keys_iff.2 ⟨f, hf⟩
    · intro tag branch signature hb hs
      obtain ⟨f, hf, hreflects⟩ := exists_get? h hb
      obtain ⟨g, hg, hsignature, hty⟩ := hall tag signature hs
      rw [hf] at hg
      obtain rfl := Option.some.inj hg
      exact (hreflects.signature_iff signature T).2 ⟨hsignature.symm, hty.symm⟩
  · intro hcovered
    obtain ⟨hkeys, hreturns⟩ := hcovered
    constructor
    · intro tag signature hs
      have htag := (hkeys tag).2 (TypeDecl.hasConstructor_iff.2 ⟨signature, hs⟩)
      obtain ⟨branch, hb⟩ := Entries.mem_keys_iff.1 htag
      obtain ⟨f, hf, hreflects⟩ := exists_get? h hb
      obtain ⟨hsignature, hty⟩ :=
        (hreflects.signature_iff signature T).1 (hreturns tag branch signature hb hs)
      exact ⟨f, hf, hsignature.symm, hty.symm⟩
    · intro b hb
      have htag : b.1 ∈ branches.keys := List.mem_map_of_mem hb
      rw [← keys_eq h, hkeys, TypeDecl.hasConstructor_iff] at htag
      exact Option.ne_none_iff_exists'.2 htag

end Branches

end Surface

namespace Registry

open Surface

variable {R : Registry}

theorem readParams_eq_ok (hR : R.Reachable) {params : List Json} {ps : List Param} :
    List.Forall₂ (fun p q => R.readParam p = .ok q) params ps ↔
      List.Forall₂ SpellsParam params ps ∧ ∀ p ∈ ps, R.contains p.ty = true := by
  simp only [readParam_eq_ok hR]
  constructor
  · intro h
    induction h with
    | nil => exact ⟨.nil, fun p hp => absurd hp List.not_mem_nil⟩
    | cons hp _ ih => exact ⟨.cons hp.1 ih.1, List.forall_mem_cons.2 ⟨hp.2, ih.2⟩⟩
  · intro hs
    obtain ⟨h, hdeclared⟩ := hs
    induction h with
    | nil => exact .nil
    | cons hp _ ih =>
      obtain ⟨hfirst, hrest⟩ := List.forall_mem_cons.1 hdeclared
      exact .cons ⟨hp, hfirst⟩ (ih hrest)

/-- A tree that is read is well-formed and reflects what was read. -/
theorem wellFormed_of_read (hR : R.Reachable) :
    (∀ j t, R.readTerm j = .ok t → WellFormed R j ∧ Reflects j t) ∧
      ∀ j f, R.readLiteral j = .ok f → WellFormed R j ∧ ReflectsFunc j f := by
  refine read_induct ?free ?construct ?func ?call ?caseOf ?mk
  case free =>
    intro s name ty t hs hfree
    obtain ⟨_, decl, hd, rfl⟩ := free_eq_ok.1 hfree
    have hv := typedName?_eq_some_iff.1 hs
    rw [(hR.name_eq hd).1]
    exact ⟨.free hv (contains_iff.2 ⟨decl, hd⟩), reflects_free hv⟩
  case construct =>
    intro s ty tag items args t hs hargs hbuild
    obtain ⟨decl, signature, deps, hd, hsignature, _, hu, rfl⟩ := construct_eq_ok.1 hbuild
    obtain ⟨hparts, hreflects⟩ := (List.forall₂_and_left _ _).1 hargs
    have hhead := Head.ofString?_eq_some_iff.1 hs
    rw [(hR.name_eq hd).1]
    refine ⟨.construct hhead hd ?_ hparts ?_, reflects_construct hhead hreflects hu⟩
    · exact TypeDecl.hasConstructor_iff.2 ⟨signature, hsignature⟩
    · exact (gathers_construct s hreflects).consistent_iff.2 ⟨deps, hu⟩
  case func =>
    intro j f hliteral
    obtain ⟨hj, hf⟩ := hliteral
    exact ⟨hj, hf.toReflects⟩
  case call =>
    intro s ty decl literal f items args t hs hd hcallee hargs hbuild hty
    obtain ⟨hliteral, hf⟩ := hcallee
    obtain ⟨htypes, deps, hu, rfl⟩ := Func.call_eq_ok.1 hbuild
    obtain ⟨hparts, hreflects⟩ := (List.forall₂_and_left _ _).1 hargs
    have hhead := Head.ofString?_eq_some_iff.1 hs
    have hresult : f.ty = ty := hty.trans (hR.name_eq hd).1
    have hreturns : HasSignature literal f.signature ty :=
      (hf.signature_iff _ _).2 ⟨rfl, hresult.symm⟩
    have htakes := (forall₂_hasType_iff hreflects).2 htypes
    have hconsistent := (gathers_call s hf hreflects).consistent_iff.2 ⟨deps, hu⟩
    exact ⟨.call hhead (contains_iff.2 ⟨decl, hd⟩) hliteral hparts hreturns htakes hconsistent,
      reflects_call hhead hf hresult hreflects hu⟩
  case caseOf =>
    intro s ty scrutinee u fields branches t hs hfirst hbranches hbuild
    obtain ⟨hscrutinee, hu⟩ := hfirst
    obtain ⟨result, decl, deps, hr, hd, hfits, hunion, rfl⟩ := caseOf_eq_ok_iff.1 hbuild
    have hhead := Head.ofString?_eq_some_iff.1 hs
    rw [(hR.name_eq hr).1] at hfits ⊢
    have hall : List.Forall₂ (fun a b => (IsLiteral a.2 ∧ WellFormed R a.2) ∧ a.1 = b.1 ∧
        ReflectsFunc a.2 b.2) fields branches :=
      hbranches.imp fun a b h => ⟨⟨h.2.2.literal, h.2.1⟩, h.1, h.2.2⟩
    obtain ⟨hparts, hreflects⟩ := (List.forall₂_and_left _ _).1 hall
    obtain ⟨hcovered, hreturns⟩ := (branchesFault?_eq_none_iff_covered hreflects).1 hfits
    have hconsistent := (gathers_caseOf s hu hreflects).consistent_iff.2 ⟨deps, hunion⟩
    refine ⟨.caseOf hhead (contains_iff.2 ⟨result, hr⟩) hscrutinee ((hu.ty_iff _).2 rfl) hd
      (fun b hb => (hparts b hb).1) (fun b hb => (hparts b hb).2) hcovered hreturns hconsistent, ?_⟩
    exact reflects_caseOf hhead hu hreflects hunion
  case mk =>
    intro params body ps b f hps hpart hbuild
    obtain ⟨hbody, hb⟩ := hpart
    obtain ⟨hdistinct, hused, rfl⟩ := Func.build_eq_ok.1 hbuild
    obtain ⟨hspelled, hdeclared⟩ := (readParams_eq_ok hR).1 hps
    refine ⟨.literal hspelled hdeclared hdistinct ?_ hbody, reflects_literal hspelled hb⟩
    intro p hp T hT
    exact hused p hp T ((hb.free_iff p.name T).1 hT)

theorem exists_forall₂ {α β : Type} {r : α → β → Prop} {as : List α}
    (h : ∀ a ∈ as, ∃ b, r a b) : ∃ bs, List.Forall₂ r as bs := by
  induction as with
  | nil => exact ⟨[], .nil⟩
  | cons a as ih =>
    obtain ⟨⟨b, hb⟩, hrest⟩ := List.forall_mem_cons.1 h
    obtain ⟨bs, hbs⟩ := ih hrest
    exact ⟨b :: bs, .cons hb hbs⟩

theorem exists_readLiteral {j : Json} {t : Term} (hj : IsLiteral j)
    (h : R.readTerm j = .ok t) : ∃ f, R.readLiteral j = .ok f := by
  obtain ⟨params, body, rfl⟩ := hj
  rw [readTerm_literal, Fault.bind_eq_ok] at h
  obtain ⟨f, hf, _⟩ := h
  exact ⟨f, hf⟩

/-- Every well-formed tree is read. -/
theorem exists_read (hR : R.Reachable) {j : Json} (h : WellFormed R j) :
    ∃ t, R.readTerm j = .ok t := by
  -- The parts are read by induction, and what the tree says about them is what was read.
  obtain ⟨hterm, hliteral⟩ := wellFormed_of_read hR
  induction h with
  | @free s x T spelled declared =>
    obtain ⟨decl, hd⟩ := contains_iff.1 declared
    refine ⟨.free x decl.name, ?_⟩
    rw [readTerm, typedName?_eq_some_iff.2 spelled]
    exact free_eq_ok.2 ⟨spelled.name_identifier, decl, hd, rfl⟩
  | @construct s T tag args decl spelled declared known _ consistent ih =>
    obtain ⟨ts, hts⟩ := exists_forall₂ ih
    have hreflects := hts.imp fun j t h => (hterm j t h).2
    obtain ⟨signature, hsignature⟩ := TypeDecl.hasConstructor_iff.1 known
    obtain ⟨deps, hu⟩ := (gathers_construct s hreflects).consistent_iff.1 consistent
    refine ⟨.construct decl.name tag ts deps, ?_⟩
    rw [readTerm, readForm_construct_eq_ok (Head.ofString?_eq_some_iff.2 spelled)]
    exact ⟨ts, hts, construct_eq_ok.2
      ⟨decl, signature, deps, declared, hsignature, spelled.proper.2, hu, rfl⟩⟩
  | @literal params body ps spelled declared distinct used _ ih =>
    obtain ⟨t, ht⟩ := ih
    have hreflects := (hterm body t ht).2
    have hused : ∀ p ∈ ps, ∀ T, t.deps.get? p.name = some T → T = p.ty := by
      intro p hp T hT
      exact used p hp T ((hreflects.free_iff p.name T).2 hT)
    have hparams := (readParams_eq_ok hR).2 ⟨spelled, declared⟩
    have hbuild := Func.build_eq_ok.2 ⟨distinct, hused, rfl⟩
    have hf := readLiteral_eq_ok.2 ⟨params, body, ps, t, rfl, hparams, ht, hbuild⟩
    refine ⟨.func (.mk ps t (t.deps.without (ps.map Param.name))), ?_⟩
    rw [readTerm_literal, hf]
    rfl
  | @call s T callee args signature spelled declared _ _ returns takes consistent ihf iha =>
    obtain ⟨decl, hd⟩ := contains_iff.1 declared
    obtain ⟨t, ht⟩ := ihf
    obtain ⟨f, hf⟩ := exists_readLiteral returns.isLiteral ht
    have hcallee := (hliteral callee f hf).2
    obtain ⟨ts, hts⟩ := exists_forall₂ iha
    have hreflects := hts.imp fun j t h => (hterm j t h).2
    obtain ⟨hsignature, hresult⟩ := (hcallee.signature_iff signature T).1 returns
    have htypes : ts.map Term.ty = f.signature :=
      ((forall₂_hasType_iff hreflects).1 takes).trans hsignature
    obtain ⟨deps, hu⟩ := (gathers_call s hcallee hreflects).consistent_iff.1 consistent
    refine ⟨.call f ts deps, ?_⟩
    rw [readTerm, readForm_call_eq_ok (Head.ofString?_eq_some_iff.2 spelled)]
    have hbuild : f.call ts = .ok (.call f ts deps) := Func.call_eq_ok.2 ⟨htypes, deps, hu, rfl⟩
    refine ⟨callee, args, decl, f, ts, rfl, hd, hf, hts, hbuild, ?_⟩
    rw [Term.ty, ← hresult, (hR.name_eq hd).1]
  | @caseOf s T U scrutinee branches decl spelled declared _ typed analysed literals _ covered
      returns consistent iht ihb =>
    obtain ⟨result, hr⟩ := contains_iff.1 declared
    obtain ⟨u, hu⟩ := iht
    have hscrutinee := (hterm scrutinee u hu).2
    have hread : ∀ a ∈ branches, ∃ b : Name × Func, a.1 = b.1 ∧ R.readLiteral a.2 = .ok b.2 := by
      intro a ha
      obtain ⟨t, ht⟩ := ihb a ha
      obtain ⟨f, hf⟩ := exists_readLiteral (literals a ha) ht
      exact ⟨(a.1, f), rfl, hf⟩
    obtain ⟨fs, hfs⟩ := exists_forall₂ hread
    have hreflects : List.Forall₂ (fun a b => a.1 = b.1 ∧ ReflectsFunc a.2 b.2) branches fs :=
      hfs.imp fun a b h => ⟨h.1, (hliteral a.2 b.2 h.2).2⟩
    have hfits : decl.branchesFault? result.name fs = none := by
      rw [(hR.name_eq hr).1]
      exact (branchesFault?_eq_none_iff_covered hreflects).2 ⟨covered, returns⟩
    obtain ⟨deps, hunion⟩ := (gathers_caseOf s hscrutinee hreflects).consistent_iff.1 consistent
    obtain rfl := (hscrutinee.ty_iff U).1 typed
    refine ⟨.caseOf result.name u fs deps, ?_⟩
    rw [readTerm, readForm_caseOf_eq_ok (Head.ofString?_eq_some_iff.2 spelled)]
    exact ⟨scrutinee, branches, u, fs, rfl, hu, hfs,
      caseOf_eq_ok_iff.2 ⟨result, decl, deps, hr, analysed, hfits, hunion, rfl⟩⟩

end Registry

/-- A tree is read as a term exactly when it belongs to the surface language. -/
theorem readTerm_ok_iff_wellFormed {R : Registry} (hR : R.Reachable) (j : Json) :
    (∃ t, R.readTerm j = .ok t) ↔ Surface.WellFormed R j := by
  constructor
  · intro h
    obtain ⟨t, ht⟩ := h
    exact ((Registry.wellFormed_of_read hR).1 j t ht).1
  · intro h
    exact Registry.exists_read hR h

/-- Natural numbers and a type with one value. -/
def Registry.naturalsAndUnit : Registry :=
  ⟨.insert naturals.types "Unit" ⟨"Unit", .single "unit" []⟩, .insert naturals.index "Unit" ()⟩

/-- The variable `x` is bound as a number in the function and stands free at another type in its
argument. -/
def Json.shadowed : Json :=
  .arr [.str "Nat<-apply", .arr [.arr [.str "x:Nat"], .str "x : Nat"],
    .arr [.str "Nat<-apply", .arr [.arr [.str "y:Unit"], .arr [.str "Nat.zero"]], .str "x:Unit"]]

/-- The variable `x` stands free at two types. -/
def Json.doublyTyped : Json := .arr [.str "Nat.next", .str "x : Nat", .str "x:Unit"]

theorem shadowed_is_accepted_and_doubly_typed_is_not :
    Registry.naturalsAndUnit.Reachable ∧ Surface.WellFormed .naturalsAndUnit .shadowed ∧
    ¬ Surface.WellFormed .naturalsAndUnit .doublyTyped := by
  have hdecls : Registry.ofDecls [("Nat", [("zero", []), ("next", ["Nat"])]),
      ("Unit", [("unit", [])])] = .ok .naturalsAndUnit := rfl
  have hR := Registry.reachable_of_ofDecls hdecls
  have haccepted : (Registry.naturalsAndUnit.readTerm .shadowed).isOk = true := by decide +kernel
  have hrefused : (Registry.naturalsAndUnit.readTerm .doublyTyped).isOk = false := by
    decide +kernel
  refine ⟨hR, (readTerm_ok_iff_wellFormed hR _).1 ?_, ?_⟩
  · cases hread : Registry.naturalsAndUnit.readTerm .shadowed with
    | ok t => exact ⟨t, rfl⟩
    | error fault =>
      rw [hread] at haccepted
      cases haccepted
  · intro h
    obtain ⟨t, ht⟩ := (readTerm_ok_iff_wellFormed hR _).2 h
    rw [ht] at hrefused
    cases hrefused

end DataCalculus
