import DataCalculus.Proofs.DepthLimit

/-!
# Lifted values

A value that was lifted into a term evaluates to itself: whatever evaluation checks at a node was
checked when the value was made, and no node looks at the environment. The deepest level that is
reached is the height of the value, for values of any shape and width, so that it is known of every
limit whether it is exceeded; that a limit leaves room for a value is read off from it. Values of
other registries are left out.
-/

namespace DataCalculus.Interpreter

set_option autoImplicit false

/-- The runs under all limits give `a` and go down to level `depth` for it. -/
structure Reaches {α : Type} (run : Option Nat → Except Fault α) (a : α) (depth : Nat) : Prop where
  value : run none = .ok a
  threshold : Threshold run depth

namespace Reaches

variable {α β : Type}

theorem pure (a : α) : Reaches (fun _ => .ok a) a 0 :=
  ⟨rfl, .constant fun _ h => by cases h⟩

theorem bind {first : Option Nat → Except Fault α} {next : Option Nat → α → Except Fault β}
    {a : α} {b : β} {depth below : Nat} (h : Reaches first a depth)
    (hnext : Reaches (fun limit => next limit a) b below) :
    Reaches (fun limit => first limit >>= next limit) b (max depth below) := by
  refine ⟨?_, h.threshold.bind h.value hnext.threshold⟩
  show first none >>= next none = _
  rw [h.value]
  exact hnext.value

/-- A run gives `a` under every limit that leaves room for the level that is reached. -/
theorem run_eq_ok {run : Option Nat → Except Fault α} {a : α} {depth : Nat}
    (h : Reaches run a depth) {limit : Option Nat} (hl : ∀ n, limit = some n → depth ≤ n) :
    run limit = .ok a := by
  cases limit with
  | none => exact h.value
  | some n => exact (h.threshold.kept n (hl n rfl)).trans h.value

/-- A run under a limit gives `a` or exceeds the limit, and the level that is reached decides. -/
theorem run_eq {run : Option Nat → Except Fault α} {a : α} {depth : Nat} (h : Reaches run a depth)
    (limit : Option Nat) : run limit = match limit with
      | none => .ok a
      | some n => if depth ≤ n then .ok a else .error (.depthExceeded n) := by
  cases limit with
  | none => exact h.value
  | some n =>
    by_cases hn : depth ≤ n
    · simp only [hn, ↓reduceIte]
      exact h.run_eq_ok fun limit hl => Option.some.inj hl ▸ hn
    · simp only [hn, ↓reduceIte]
      exact h.threshold.cut n (Nat.lt_of_not_le hn)

end Reaches

variable {I : Interpreter} {env : Env} {depth : Nat} {v : Value}

theorem enter_reaches (I : Interpreter) (depth : Nat) :
    Reaches (fun limit => (I.withLimit limit).enter depth) () depth :=
  ⟨rfl, I.enter_threshold depth⟩

/-- Constants below a term at level `depth` go as deep as the highest of them. Without constants no
level is looked at, so that what is reached is stated together with the level of the term. -/
theorem evalAll_constants_reaches {vs : List Value}
    (h : ∀ v ∈ vs, Reaches (fun limit => (I.withLimit limit).eval (.constant v) env (depth + 1)) v
      (depth + 1 + v.height)) :
    ∃ below, max depth below = depth + Value.heightAll vs ∧
      Reaches (fun limit => (I.withLimit limit).evalAll (Term.constants vs) env (depth + 1)) vs
        below := by
  induction vs with
  | nil => exact ⟨0, Nat.max_eq_left (Nat.zero_le depth), .pure []⟩
  | cons v vs ih =>
    obtain ⟨hv, hvs⟩ := List.forall_mem_cons.1 h
    obtain ⟨below, hbelow, hrest⟩ := ih hvs
    refine ⟨max (depth + 1 + v.height) (max below 0), ?_, hv.bind (hrest.bind (.pure (v :: vs)))⟩
    rw [Value.heightAll]
    omega

/-- A constant at level `depth` goes down by its height, and no further. -/
theorem eval_constant_reaches (hR : I.registry.Reachable) (hv : v.Valid I.registry) (env : Env)
    (depth : Nat) : Reaches (fun limit => (I.withLimit limit).eval (.constant v) env depth) v
      (depth + v.height) := by
  induction hv generalizing depth with
  | @mk ty tag args decl hd hs valid ih =>
    have hvalue : I.registry.value ty tag args = .ok (.mk ty tag args) :=
      (Value.Valid.mk hd hs valid).value_eq hR
    have hmade : Reaches (fun _ => I.registry.value ty tag args) (.mk ty tag args) 0 := by
      rw [hvalue]
      exact .pure _
    obtain ⟨below, hbelow, hargs⟩ := evalAll_constants_reaches fun arg ha => ih arg ha (depth + 1)
    have hnode : Reaches (fun limit => (I.withLimit limit).enter depth >>= fun _ =>
        (I.withLimit limit).evalAll (Term.constants args) env (depth + 1) >>= I.registry.value ty tag)
        (.mk ty tag args) (max depth (max below 0)) :=
      (I.enter_reaches depth).bind (hargs.bind hmade)
    rw [Nat.max_eq_left (Nat.zero_le below), hbelow] at hnode
    exact hnode

/-- A constant has its value wherever the limit leaves room for its height. -/
theorem eval_constant (hR : I.registry.Reachable) (hv : v.Valid I.registry) (env : Env)
    (h : ∀ limit, I.settings.maxDepth = some limit → depth + v.height ≤ limit) :
    I.eval (.constant v) env depth = .ok v :=
  (eval_constant_reaches hR hv env depth).run_eq_ok h

/-- Constants below a term at level `depth` have their values wherever the limit leaves room for the
term with the constants below it. -/
theorem evalAll_constants (hR : I.registry.Reachable) {vs : List Value}
    (hv : ∀ v ∈ vs, v.Valid I.registry) (env : Env)
    (h : ∀ limit, I.settings.maxDepth = some limit → depth + Value.heightAll vs ≤ limit) :
    I.evalAll (Term.constants vs) env (depth + 1) = .ok vs := by
  obtain ⟨below, hbelow, hvs⟩ := evalAll_constants_reaches fun v hmem =>
    eval_constant_reaches hR (hv v hmem) env (depth + 1)
  refine hvs.run_eq_ok fun limit hl => ?_
  have hroom := h limit hl
  omega

end DataCalculus.Interpreter
