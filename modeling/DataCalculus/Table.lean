import DataCalculus.Name

/-!
# Tables

Finite maps from names, kept as lists of entries in strictly increasing order of their names, so
that a listing is sorted and equal maps are equal lists. `Entries` are the plain lists, which
trees can hold in their nodes; `Table` adds the proof of the order.
-/

namespace DataCalculus

set_option autoImplicit false

/-- In a list that increases along `before`, a search stops at the least member that it has an
answer for. -/
theorem findSome?_eq_some_iff_least {α β : Type} {before : α → α → Prop}
    (asymm : ∀ a b, before a b → ¬ before b a) {as : List α} (h : as.Pairwise before)
    {f : α → Option β} {b : β} :
    as.findSome? f = some b ↔ ∃ a ∈ as, f a = some b ∧ ∀ x ∈ as, before x a → f x = none := by
  rw [List.findSome?_eq_some_iff]
  constructor
  · intro hfound
    obtain ⟨front, a, rest, rfl, ha, hfront⟩ := hfound
    obtain ⟨_, hrest, _⟩ := List.pairwise_append.1 h
    refine ⟨a, List.mem_append_right _ List.mem_cons_self, ha, ?_⟩
    intro x hx hxa
    rcases List.mem_append.1 hx with hx | hx
    · exact hfront x hx
    · rcases List.mem_cons.1 hx with rfl | hx
      · exact absurd hxa (asymm _ _ hxa)
      · exact absurd hxa (asymm _ _ ((List.pairwise_cons.1 hrest).1 x hx))
  · intro hleast
    obtain ⟨a, hmem, ha, hnone⟩ := hleast
    obtain ⟨front, rest, rfl⟩ := List.append_of_mem hmem
    refine ⟨front, a, rest, rfl, ha, ?_⟩
    intro x hx
    have hxa := (List.pairwise_append.1 h).2.2 x hx a List.mem_cons_self
    exact hnone x (List.mem_append_left _ hx) hxa

/-- Values under names, to be listed in increasing order of the names. -/
abbrev Entries (α : Type) := List (Name × α)

namespace Entries

variable {α β : Type}

def get? : Entries α → Name → Option α
  | [], _ => none
  | (k, v) :: rest, key => if key = k then some v else get? rest key

/-- Puts `value` under `key`, in place of an earlier value there. -/
def insert (key : Name) (value : α) : Entries α → Entries α
  | [] => [(key, value)]
  | (k, v) :: rest =>
    if key < k then (key, value) :: (k, v) :: rest
    else if key = k then (key, value) :: rest
    else (k, v) :: insert key value rest

/-- Leaves out the names in `keys`. -/
def without (keys : List Name) (es : Entries α) : Entries α := es.filter (·.1 ∉ keys)

def keys (es : Entries α) : List Name := es.map (·.1)

/-- Later pairs replace earlier ones of the same name. -/
def ofList (pairs : List (Name × α)) : Entries α :=
  pairs.foldl (fun es pair => insert pair.1 pair.2 es) []

/-- Strictly increasing names. -/
def Ordered (es : Entries α) : Prop := es.Pairwise (·.1 < ·.1)

instance (es : Entries α) : Decidable es.Ordered := inferInstanceAs (Decidable (List.Pairwise _ _))

@[simp] theorem get?_nil (key : Name) : get? ([] : Entries α) key = none := rfl

theorem get?_insert (key : Name) (value : α) (es : Entries α) (k : Name) :
    get? (insert key value es) k = if k = key then some value else get? es k := by
  fun_induction insert key value es <;> grind [get?]

theorem mem_insert_fst {key : Name} {value : α} {es : Entries α} {e : Name × α}
    (h : e ∈ insert key value es) : e.1 = key ∨ e ∈ es := by
  fun_induction insert key value es <;> grind

theorem Ordered.insert {es : Entries α} (h : es.Ordered) (key : Name) (value : α) :
    Ordered (Entries.insert key value es) := by
  fun_induction Entries.insert key value es with
  | case1 => simp [Ordered]
  | case2 k v rest hlt =>
    refine List.pairwise_cons.2 ⟨fun e he => ?_, h⟩
    rcases List.mem_cons.1 he with rfl | he
    · exact hlt
    · exact String.lt_trans hlt ((List.pairwise_cons.1 h).1 e he)
  | case3 v rest hlt => exact List.pairwise_cons.2 (List.pairwise_cons.1 h)
  | case4 k v rest hlt hne ih =>
    obtain ⟨hk, hrest⟩ := List.pairwise_cons.1 h
    refine List.pairwise_cons.2 ⟨fun e he => ?_, ih hrest⟩
    rcases mem_insert_fst he with he | he
    · show k < e.1
      rw [he]
      exact Std.lt_of_le_of_ne (String.not_lt.1 hlt) (Ne.symm hne)
    · exact hk e he

theorem Ordered.without {es : Entries α} (h : es.Ordered) (keys : List Name) :
    (es.without keys).Ordered := List.Pairwise.filter _ h

theorem get?_without (keys : List Name) (es : Entries α) (k : Name) :
    get? (without keys es) k = if k ∈ keys then none else get? es k := by
  induction es with
  | nil => simp [without]
  | cons e rest ih => by_cases he : e.1 ∈ keys <;> grind [without, get?]

theorem mem_of_get? {es : Entries α} {key : Name} {value : α} (h : get? es key = some value) :
    (key, value) ∈ es := by
  fun_induction get? es key <;> grind

theorem mem_keys_iff {es : Entries α} {key : Name} :
    key ∈ es.keys ↔ ∃ value, get? es key = some value := by
  induction es with
  | nil => simp [keys]
  | cons e rest ih =>
    have hkeys : keys (e :: rest) = e.1 :: keys rest := rfl
    by_cases hk : key = e.1 <;> simp [hkeys, get?, hk, ih]

theorem get?_map (g : α → β) (es : Entries α) (key : Name) :
    get? (es.map fun e => (e.1, g e.2)) key = (get? es key).map g := by
  induction es with
  | nil => rfl
  | cons e es ih => by_cases hk : key = e.1 <;> simp [get?, hk, ← ih]

theorem get?_eq_none_of_lt {es : Entries α} {key : Name} (h : ∀ e ∈ es, key < e.1) :
    get? es key = none := by
  cases hg : get? es key with
  | none => rfl
  | some v => exact absurd (h _ (mem_of_get? hg)) (String.lt_irrefl key)

/-- In ordered entries a lookup finds exactly the entries. -/
theorem Ordered.get?_eq_some_iff {es : Entries α} (h : es.Ordered) {key : Name} {value : α} :
    get? es key = some value ↔ (key, value) ∈ es := by
  refine ⟨mem_of_get?, fun hm => ?_⟩
  induction es with
  | nil => simp at hm
  | cons e rest ih =>
    obtain ⟨hk, hrest⟩ := List.pairwise_cons.1 h
    rcases List.mem_cons.1 hm with rfl | hr
    · simp [get?]
    · have hlt : e.1 < key := hk _ hr
      have hne : key ≠ e.1 := fun he => String.lt_irrefl key (he ▸ hlt)
      simpa [get?, hne] using ih hrest hr

/-- Ordered entries are determined by their lookups. -/
theorem Ordered.ext {es fs : Entries α} (he : es.Ordered) (hf : fs.Ordered)
    (h : ∀ key, get? es key = get? fs key) : es = fs := by
  induction es generalizing fs with
  | nil =>
    cases fs with
    | nil => rfl
    | cons f fs => simpa [get?] using h f.1
  | cons e es ih =>
    cases fs with
    | nil => simpa [get?] using h e.1
    | cons f fs =>
      obtain ⟨ke, ve⟩ := e
      obtain ⟨kf, vf⟩ := f
      obtain ⟨he₁, he₂⟩ := List.pairwise_cons.1 he
      obtain ⟨hf₁, hf₂⟩ := List.pairwise_cons.1 hf
      have hle : ¬ ke < kf := fun hlt => by
        have hn : get? ((kf, vf) :: fs) ke = none := get?_eq_none_of_lt fun g hg => by
          rcases List.mem_cons.1 hg with rfl | hg
          · exact hlt
          · exact String.lt_trans hlt (hf₁ g hg)
        have := h ke
        rw [hn] at this
        simp [get?] at this
      have hge : ¬ kf < ke := fun hlt => by
        have hn : get? ((ke, ve) :: es) kf = none := get?_eq_none_of_lt fun g hg => by
          rcases List.mem_cons.1 hg with rfl | hg
          · exact hlt
          · exact String.lt_trans hlt (he₁ g hg)
        have := h kf
        rw [hn] at this
        simp [get?] at this
      have hk : ke = kf := String.le_antisymm (String.not_lt.1 hge) (String.not_lt.1 hle)
      subst hk
      have hv : ve = vf := by simpa [get?] using h ke
      subst hv
      congr 1
      refine ih he₂ hf₂ fun key => ?_
      by_cases hkey : key = ke
      · subst hkey
        rw [get?_eq_none_of_lt he₁, get?_eq_none_of_lt hf₁]
      · simpa [get?, hkey] using h key

/-- Ordered entries under the same names list these in the same way. -/
theorem Ordered.keys_eq {es : Entries α} {fs : Entries β} (he : es.Ordered) (hf : fs.Ordered)
    (h : ∀ key, key ∈ es.keys ↔ key ∈ fs.keys) : es.keys = fs.keys := by
  have hes : Ordered (es.map fun e => (e.1, ())) := List.pairwise_map.2 he
  have hfs : Ordered (fs.map fun e => (e.1, ())) := List.pairwise_map.2 hf
  have hunits : (es.map fun e => (e.1, ())) = fs.map fun e => (e.1, ()) := by
    refine hes.ext hfs fun key => ?_
    have hkey := h key
    rw [mem_keys_iff, mem_keys_iff] at hkey
    rw [get?_map fun _ => (), get?_map fun _ => ()]
    cases hg : get? es key <;> cases hk : get? fs key <;> simp_all
  have hkeys := congrArg keys hunits
  rwa [keys, keys, List.map_map, List.map_map] at hkeys

end Entries

/-- A finite map from names with a sorted listing. -/
structure Table (α : Type) where
  entries : Entries α
  ordered : entries.Ordered

namespace Table

variable {α : Type}

instance [DecidableEq α] : DecidableEq (Table α) := fun t u =>
  decidable_of_iff (t.entries = u.entries) (by cases t; cases u; simp)

def empty : Table α := ⟨[], List.Pairwise.nil⟩

instance : Inhabited (Table α) := ⟨empty⟩

def single (key : Name) (value : α) : Table α := ⟨[(key, value)], by simp [Entries.Ordered]⟩

def get? (t : Table α) (key : Name) : Option α := t.entries.get? key

def contains (t : Table α) (key : Name) : Bool := (t.get? key).isSome

/-- Puts `value` under `key`, in place of an earlier value there. -/
def insert (t : Table α) (key : Name) (value : α) : Table α :=
  ⟨Entries.insert key value t.entries, t.ordered.insert key value⟩

/-- Leaves out the names in `keys`. -/
def without (t : Table α) (keys : List Name) : Table α :=
  ⟨t.entries.without keys, t.ordered.without keys⟩

def keys (t : Table α) : List Name := t.entries.keys

def values (t : Table α) : List α := t.entries.map (·.2)

def size (t : Table α) : Nat := t.entries.length

def isEmpty (t : Table α) : Bool := t.entries.isEmpty

/-- Later pairs replace earlier ones of the same name. -/
def ofList (pairs : List (Name × α)) : Table α :=
  pairs.foldl (fun t pair => t.insert pair.1 pair.2) empty

@[simp] theorem get?_empty (key : Name) : (empty : Table α).get? key = none := rfl

theorem get?_insert (t : Table α) (key : Name) (value : α) (k : Name) :
    (t.insert key value).get? k = if k = key then some value else t.get? k :=
  Entries.get?_insert key value t.entries k

theorem get?_without (t : Table α) (keys : List Name) (k : Name) :
    (t.without keys).get? k = if k ∈ keys then none else t.get? k :=
  Entries.get?_without keys t.entries k

theorem get?_without_eq_some {t : Table α} {keys : List Name} {key : Name} {value : α} :
    (t.without keys).get? key = some value ↔ key ∉ keys ∧ t.get? key = some value := by
  rw [get?_without]
  by_cases hk : key ∈ keys <;> simp [hk]

theorem get?_single (key : Name) (value : α) (k : Name) :
    (single key value).get? k = if k = key then some value else none := rfl

@[simp] theorem get?_single_self (key : Name) (value : α) :
    (single key value).get? key = some value := if_pos rfl

theorem mem_keys_iff {t : Table α} {key : Name} :
    key ∈ t.keys ↔ ∃ value, t.get? key = some value := Entries.mem_keys_iff

theorem mem_keys_insert {t : Table α} {key : Name} {value : α} {k : Name} :
    k ∈ (t.insert key value).keys ↔ k = key ∨ k ∈ t.keys := by
  rw [mem_keys_iff, mem_keys_iff, get?_insert]
  by_cases hk : k = key <;> simp [hk]

theorem not_mem_keys_iff {t : Table α} {key : Name} : key ∉ t.keys ↔ t.get? key = none := by
  rw [mem_keys_iff, Option.eq_none_iff_forall_ne_some, not_exists]

theorem get?_eq_some_iff {t : Table α} {key : Name} {value : α} :
    t.get? key = some value ↔ (key, value) ∈ t.entries := t.ordered.get?_eq_some_iff

/-- What stands before an entry are the entries with smaller names. -/
theorem mem_front_iff {t : Table α} {front rest : Entries α} {key k : Name} {value v : α}
    (h : t.entries = front ++ (key, value) :: rest) :
    (k, v) ∈ front ↔ t.get? k = some v ∧ k < key := by
  have hordered := t.ordered
  rw [h, Entries.Ordered, List.pairwise_append] at hordered
  obtain ⟨_, hrest, hfront⟩ := hordered
  rw [get?_eq_some_iff, h]
  constructor
  · intro hk
    exact ⟨List.mem_append_left _ hk, hfront _ hk _ List.mem_cons_self⟩
  · intro hk
    obtain ⟨hmem, hlt⟩ := hk
    rcases List.mem_append.1 hmem with hmem | hmem
    · exact hmem
    · rcases List.mem_cons.1 hmem with he | hmem
      · cases he
        exact absurd hlt (String.lt_irrefl _)
      · exact absurd hlt (String.lt_asymm ((List.pairwise_cons.1 hrest).1 _ hmem))

/-- A search through the entries stops at the least name that it has an answer for. -/
theorem findSome?_entries {β : Type} {t : Table α} {f : Name × α → Option β} {b : β} :
    t.entries.findSome? f = some b ↔
      ∃ key value, t.get? key = some value ∧ f (key, value) = some b ∧
        ∀ k v, t.get? k = some v → k < key → f (k, v) = none := by
  rw [findSome?_eq_some_iff_least (fun a b => String.lt_asymm) t.ordered]
  simp only [get?_eq_some_iff, Prod.exists, Prod.forall]

theorem keys_increasing (t : Table α) : t.keys.Pairwise (· < ·) := List.pairwise_map.2 t.ordered

/-- Looking up the names in their order lists the values. -/
theorem filterMap_get?_keys (t : Table α) : t.keys.filterMap t.get? = t.values := by
  have hentries : ∀ es : Entries α, (∀ e ∈ es, t.get? e.1 = some e.2) →
      es.keys.filterMap t.get? = es.map (·.2) := by
    intro es hes
    induction es with
    | nil => rfl
    | cons e es ih =>
      obtain ⟨he, hrest⟩ := List.forall_mem_cons.1 hes
      have hkeys : Entries.keys (e :: es) = e.1 :: Entries.keys es := rfl
      rw [hkeys, List.filterMap_cons_some he, ih hrest, List.map_cons]
  exact hentries t.entries fun e he => get?_eq_some_iff.2 he

/-- Tables are equal when all lookups agree. -/
theorem ext_get? {t u : Table α} (h : ∀ key, t.get? key = u.get? key) : t = u := by
  cases t; cases u
  simp only [mk.injEq]
  exact Entries.Ordered.ext (by assumption) (by assumption) h

end Table

end DataCalculus
