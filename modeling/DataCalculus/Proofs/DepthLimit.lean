import DataCalculus.Interpreter
import DataCalculus.Proofs.BuiltTerms

/-!
# The depth limit

A term in an environment reaches some deepest level before it has a value or fails. A limit of at
least that level changes nothing, and a smaller one is exceeded, whatever else would have gone wrong
later. Neither the term nor the environment is assumed to fit the registry.
-/

namespace DataCalculus

set_option autoImplicit false

namespace Interpreter

/-- The interpreter under another limit, or under none. -/
def withLimit (I : Interpreter) (limit : Option Nat) : Interpreter :=
  { I with settings.maxDepth := limit }

/-- The runs under all limits: a limit of at least `depth` changes nothing, a smaller one is
exceeded, and without a limit none is. -/
structure Threshold {α : Type} (run : Option Nat → Except Fault α) (depth : Nat) : Prop where
  kept : ∀ limit, depth ≤ limit → run (some limit) = run none
  cut : ∀ limit, limit < depth → run (some limit) = .error (.depthExceeded limit)
  unlimited : ∀ limit, run none ≠ .error (.depthExceeded limit)

/-- The runs have a threshold, which is at most `bound`. -/
def ThresholdWithin {α : Type} (bound : Nat) (run : Option Nat → Except Fault α) : Prop :=
  ∃ depth ≤ bound, Threshold run depth

section Thresholds

variable {α β : Type} {bound : Nat}

/-- A step that does not look at the limit. -/
theorem Threshold.constant {result : Except Fault α}
    (h : ∀ limit, result ≠ .error (.depthExceeded limit)) : Threshold (fun _ => result) 0 :=
  ⟨fun _ _ => rfl, fun limit hl => absurd hl (Nat.not_lt_zero limit), h⟩

theorem ThresholdWithin.constant {result : Except Fault α}
    (h : ∀ limit, result ≠ .error (.depthExceeded limit)) :
    ThresholdWithin bound fun _ => result := ⟨0, Nat.zero_le bound, .constant h⟩

theorem ThresholdWithin.mono {more : Nat} {run : Option Nat → Except Fault α}
    (h : ThresholdWithin bound run) (hle : bound ≤ more) : ThresholdWithin more run := by
  obtain ⟨depth, hd, hrun⟩ := h
  exact ⟨depth, Nat.le_trans hd hle, hrun⟩

/-- Two steps in a row go as deep as the deeper one, if the first one succeeds. -/
theorem Threshold.bind {first : Option Nat → Except Fault α}
    {next : Option Nat → α → Except Fault β} {depth below : Nat} {a : α}
    (h : Threshold first depth) (ha : first none = .ok a)
    (hnext : Threshold (fun limit => next limit a) below) :
    Threshold (fun limit => first limit >>= next limit) (max depth below) := by
  refine ⟨?_, ?_, ?_⟩
  · intro limit hl
    have hfirst : first (some limit) = first none := h.kept limit (by omega)
    have hsecond : next (some limit) a = next none a := hnext.kept limit (by omega)
    show first (some limit) >>= next (some limit) = first none >>= next none
    rw [hfirst, ha]
    exact hsecond
  · intro limit hl
    show first (some limit) >>= next (some limit) = _
    by_cases hd : limit < depth
    · rw [h.cut limit hd]
      rfl
    · have hfirst : first (some limit) = first none := h.kept limit (by omega)
      rw [hfirst, ha]
      exact hnext.cut limit (by omega)
  · intro limit
    show first none >>= next none ≠ _
    rw [ha]
    exact hnext.unlimited limit

/-- Two steps in a row go as deep as the first one, if it fails. -/
theorem Threshold.bind_error {first : Option Nat → Except Fault α}
    {next : Option Nat → α → Except Fault β} {depth : Nat} {fault : Fault}
    (h : Threshold first depth) (hf : first none = .error fault) :
    Threshold (fun limit => first limit >>= next limit) depth := by
  refine ⟨?_, ?_, ?_⟩
  · intro limit hl
    show first (some limit) >>= next (some limit) = first none >>= next none
    rw [h.kept limit hl, hf]
    rfl
  · intro limit hl
    show first (some limit) >>= next (some limit) = _
    rw [h.cut limit hl]
    rfl
  · intro limit
    show first none >>= next none ≠ _
    have hne := h.unlimited limit
    rw [hf] at hne ⊢
    exact fun he => hne (congrArg Except.error (Except.error.inj he))

theorem ThresholdWithin.bind {first : Option Nat → Except Fault α}
    {next : Option Nat → α → Except Fault β} (h : ThresholdWithin bound first)
    (hnext : ∀ a, ThresholdWithin bound fun limit => next limit a) :
    ThresholdWithin bound fun limit => first limit >>= next limit := by
  obtain ⟨depth, hd, hfirst⟩ := h
  cases hr : first none with
  | error fault => exact ⟨depth, hd, hfirst.bind_error hr⟩
  | ok a =>
    obtain ⟨below, hb, hsecond⟩ := hnext a
    exact ⟨max depth below, Nat.max_le.2 ⟨hd, hb⟩, hfirst.bind hr hsecond⟩

end Thresholds

variable {I : Interpreter} {env : Env} {depth bound : Nat}

theorem enter_threshold (I : Interpreter) (depth : Nat) :
    Threshold (fun limit => (I.withLimit limit).enter depth) depth := by
  refine ⟨?_, ?_, ?_⟩
  · intro limit hl
    exact if_neg (Nat.not_lt.2 hl)
  · intro limit hl
    exact if_pos hl
  · intro limit h
    cases h

/-- What a term does after its own level was compared with the limit. -/
theorem ThresholdWithin.entered {α : Type} {height : Nat} {run : Option Nat → Except Fault α}
    (h : ThresholdWithin (depth + height) run) :
    ThresholdWithin (depth + height) fun limit =>
      (I.withLimit limit).enter depth >>= fun _ => run limit := by
  have henter : ThresholdWithin (depth + height) fun limit => (I.withLimit limit).enter depth :=
    ⟨depth, Nat.le_add_right depth height, I.enter_threshold depth⟩
  exact henter.bind fun _ => h

theorem evalAll_within {args : List Term}
    (h : ∀ arg ∈ args, ThresholdWithin bound fun limit => (I.withLimit limit).eval arg env depth) :
    ThresholdWithin bound fun limit => (I.withLimit limit).evalAll args env depth := by
  induction args with
  | nil => exact .constant fun limit he => by cases he
  | cons arg args ih =>
    obtain ⟨harg, hargs⟩ := List.forall_mem_cons.1 h
    simp only [evalAll]
    refine harg.bind fun v => (ih hargs).bind fun vs => .constant ?_
    intro limit he
    cases he

theorem evalBranch_within {branches : List (Name × Func)} {v : Value}
    (h : ∀ b ∈ branches,
      ThresholdWithin bound fun limit => (I.withLimit limit).applyAt b.2 v.args env depth) :
    ThresholdWithin bound fun limit => (I.withLimit limit).evalBranch branches v env depth := by
  induction branches with
  | nil => exact .constant fun limit he => by cases he
  | cons b branches ih =>
    obtain ⟨tag, f⟩ := b
    obtain ⟨hf, hbranches⟩ := List.forall_mem_cons.1 h
    simp only [evalBranch]
    by_cases ht : v.tag = tag
    · simp only [ht, ↓reduceIte]
      exact hf
    · simp only [ht, ↓reduceIte]
      exact ih hbranches

/-- Every level below a term counts once: a term at level `depth` goes no deeper than its height
below that level, and a function no deeper than the height of its body. -/
theorem eval_within (I : Interpreter) :
    (∀ (t : Term) (env : Env) (depth : Nat), ThresholdWithin (depth + t.height) fun limit =>
      (I.withLimit limit).eval t env depth) ∧
    ∀ (f : Func) (args : List Value) (env : Env) (depth : Nat),
      ThresholdWithin (depth + f.height) fun limit =>
        (I.withLimit limit).applyAt f args env depth := by
  refine Term.induct ?free ?construct ?func ?call ?caseOf ?mk
  case free =>
    intro name ty env depth
    simp only [eval]
    refine .entered (.constant ?_)
    intro limit he
    cases Env.read_eq_error he
  case construct =>
    intro ty tag args deps ih env depth
    have hargs : ∀ arg ∈ args, ThresholdWithin (depth + Term.heightAll args) fun limit =>
        (I.withLimit limit).eval arg env (depth + 1) := by
      intro arg ha
      have hlt := Term.height_lt_heightAll ha
      exact (ih arg ha env (depth + 1)).mono (by omega)
    simp only [eval, Term.height]
    refine .entered ((evalAll_within hargs).bind fun vs => ?_)
    show ThresholdWithin _ fun _ => I.registry.value ty tag vs
    refine .constant fun limit he => ?_
    obtain h | ⟨_, h⟩ | ⟨_, _, _, h⟩ | ⟨_, _, _, _, h⟩ := Registry.value_eq_error he
    all_goals cases h
  case func =>
    intro f ih env depth
    simp only [eval, Term.height]
    exact .entered (ih [] env depth)
  case call =>
    intro f args deps ihf iha env depth
    have hargs : ∀ arg ∈ args, ThresholdWithin (depth + max f.height (Term.heightAll args))
        fun limit => (I.withLimit limit).eval arg env (depth + 1) := by
      intro arg ha
      have hlt := Term.height_lt_heightAll ha
      exact (iha arg ha env (depth + 1)).mono (by omega)
    simp only [eval, Term.height]
    refine .entered ((evalAll_within hargs).bind fun vs => ?_)
    exact (ihf vs env depth).mono (by omega)
  case caseOf =>
    intro ty scrutinee branches deps iht ihb env depth
    simp only [eval, Term.height]
    have hscrutinee : ThresholdWithin
        (depth + max (scrutinee.height + 1) (Func.heightAll branches)) fun limit =>
          (I.withLimit limit).eval scrutinee env (depth + 1) :=
      (iht env (depth + 1)).mono (by omega)
    refine .entered (hscrutinee.bind fun v => evalBranch_within fun b hb => ?_)
    have hle := Func.height_le_heightAll hb
    exact (ihb b hb v.args env depth).mono (by omega)
  case mk =>
    intro params body deps ih args env depth
    simp only [applyAt, Func.height]
    by_cases hl : args.length = params.length
    · simp only [hl, ne_eq, not_true_eq_false, ↓reduceIte]
      exact (ih _ (depth + 1)).mono (by omega)
    · simp only [ne_eq, hl, not_false_eq_true, ↓reduceIte]
      exact .constant fun limit he => by cases he

theorem evaluate_within (I : Interpreter) (t : Term) (env : Env) :
    ThresholdWithin t.height fun limit => (I.withLimit limit).evaluate t env := by
  have hcheck : ∀ limit, t.checkDeps env ≠ .error (.depthExceeded limit) := by
    intro limit h
    obtain ⟨_, _, _, _, _, hfault⟩ := Deps.check_eq_error h
    cases hfault
  refine (ThresholdWithin.constant hcheck).bind fun _ => ?_
  have heval := I.eval_within.1 t env 0
  rwa [Nat.zero_add] at heval

/-- There is a level, no deeper than the term is high, such that limits from that level on change
nothing and smaller ones are exceeded. So a run without a limit never exceeds one, a limit as great
as the height never matters, and a result under a limit stays under greater ones and under none. -/
theorem depth_limit_is_exact_threshold (I : Interpreter) (t : Term) (env : Env) :
    (∃ depth ≤ t.height, ∀ limit,
      (depth ≤ limit →
        (I.withLimit (some limit)).evaluate t env = (I.withLimit none).evaluate t env) ∧
      (limit < depth →
        (I.withLimit (some limit)).evaluate t env = .error (.depthExceeded limit))) ∧
    (∀ limit, (I.withLimit none).evaluate t env ≠ .error (.depthExceeded limit)) ∧
    (∀ limit, t.height ≤ limit →
      (I.withLimit (some limit)).evaluate t env = (I.withLimit none).evaluate t env) ∧
    ∀ limit, (I.withLimit (some limit)).evaluate t env = .error (.depthExceeded limit) ∨
      (I.withLimit none).evaluate t env = (I.withLimit (some limit)).evaluate t env ∧
      ∀ more, limit ≤ more →
        (I.withLimit (some more)).evaluate t env = (I.withLimit (some limit)).evaluate t env := by
  obtain ⟨depth, hd, h⟩ := I.evaluate_within t env
  refine ⟨⟨depth, hd, fun limit => ⟨h.kept limit, h.cut limit⟩⟩, h.unlimited, ?_, ?_⟩
  · intro limit hl
    exact h.kept limit (Nat.le_trans hd hl)
  · intro limit
    by_cases hl : limit < depth
    · exact .inl (h.cut limit hl)
    · have hkept := h.kept limit (Nat.not_lt.1 hl)
      refine .inr ⟨hkept.symm, ?_⟩
      intro more hmore
      exact (h.kept more (by omega)).trans hkept.symm

example : evaluate (withLimit ⟨.naturals, {}⟩ (some 0)) .predecessor .one =
      .error (.depthExceeded 0) ∧
    evaluate (withLimit ⟨.naturals, {}⟩ (some 1)) .predecessor .one = .ok (.mk "Nat" "zero" []) :=
  ⟨rfl, rfl⟩

end Interpreter

end DataCalculus
