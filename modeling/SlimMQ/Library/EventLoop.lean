import Mathlib.Data.List.Basic
import Mathlib.Data.List.Induction
import Mathlib.Tactic.Common

/-!
# Event loops

A loop reads one input after the other. An iteration changes the state, produces outputs, and goes
on or ends the loop; the outputs of a run are those of its iterations in order, the last one's
included. What every iteration preserves holds along every run, and `Along` restricts the runs to
those in which the inputs meet a condition on the state they are read in.

## Main definitions

* `Result`: what an iteration leaves
* `run`: the loop on a list of inputs
* `Along C`: every input that is read meets `C` at the state before it
* `execute`: a sequence of guarded steps
* `AlongSteps C`: every event of a sequence meets `C` at the state it is taken in

## Main results

* `run_snoc`, `run_append_of_not_running`: a run and one more input
* `run_induction`: the invariant rule, on the state and the outputs so far
* `exists_of_mem_outputs`: which iteration an output comes from
* `run_simulation`: the simulation rule, for two loops on the same inputs
* `mapState_run`: the refinement rule, for a loop on the images of the states and inputs
* `run_projection`: the projection rule, for an observer of a part of a loop
* `run_passed`: the rule for a loop behind a filter of its inputs
* `execute_induction`: the invariant rule for guarded steps
* `execute_history_induction`: the invariant rule for guarded steps and the events so far
* `execute_stuttering`: the simulation rule for guarded steps
* `exists_execute`, `execute_stages`: the rules for steps that can be taken
* `rel_execute`: the bisimulation rule for guarded steps
-/

namespace EventLoop

/-- What an iteration leaves: the state, its outputs, and whether the loop goes on. -/
@[ext] structure Result (σ ο : Type) where
  state : σ
  outputs : List ο
  running : Bool

/-- An iteration after which the loop goes on. -/
def Result.ok {σ ο : Type} (s : σ) (outs : List ο) : Result σ ο := ⟨s, outs, true⟩

/-- An iteration in which the loop ends. -/
def Result.fault {σ ο : Type} (s : σ) (outs : List ο) : Result σ ο := ⟨s, outs, false⟩

/-- The same iteration, seen in another state space. -/
def Result.mapState {σ τ ο : Type} (f : σ → τ) (r : Result σ ο) : Result τ ο :=
  ⟨f r.state, r.outputs, r.running⟩

variable {σ ι ο : Type} {step : σ → ι → Result σ ο}

/-- The loop on a list of inputs. -/
def run (step : σ → ι → Result σ ο) (s : σ) : List ι → Result σ ο
  | [] => .ok s []
  | i :: is =>
    let r := step s i
    if r.running then
      let t := run step r.state is
      ⟨t.state, r.outputs ++ t.outputs, t.running⟩
    -- what an ending iteration has put out counts
    else r

@[simp] theorem run_nil (s : σ) : run step s [] = .ok s [] := rfl

theorem run_append (s : σ) (xs ys : List ι) (h : (run step s xs).running) :
    run step s (xs ++ ys) =
      ⟨(run step (run step s xs).state ys).state,
        (run step s xs).outputs ++ (run step (run step s xs).state ys).outputs,
        (run step (run step s xs).state ys).running⟩ := by
  induction xs generalizing s with
  | nil => rfl
  | cons x xs ih =>
    by_cases hr : (step s x).running
    -- the loop goes on after `x`
    · simp only [run, hr, if_true, List.cons_append] at h ⊢
      rw [ih _ h]
      simp [List.append_assoc]
    · simp [run, hr] at h

/-- A loop that has ended reads nothing more. -/
theorem run_append_of_not_running (s : σ) (xs ys : List ι) (h : ¬ (run step s xs).running) :
    run step s (xs ++ ys) = run step s xs := by
  induction xs generalizing s with
  | nil => simp [Result.ok] at h
  | cons x xs ih =>
    by_cases hr : (step s x).running
    · simp only [run, hr, if_true, List.cons_append] at h ⊢
      rw [ih _ h]
    · simp [run, hr]

/-- A loop none of whose iterations ends it goes on to the last input. -/
theorem running_run (h : ∀ s i, (step s i).running) (s : σ) (is : List ι) :
    (run step s is).running := by
  induction is generalizing s with
  | nil => rfl
  | cons i is ih =>
    simp only [run, h s i, if_true]
    exact ih _

/-- A running loop and one more input. -/
theorem run_snoc (s : σ) (xs : List ι) (x : ι) (h : (run step s xs).running) :
    run step s (xs ++ [x]) =
      ⟨(step (run step s xs).state x).state,
        (run step s xs).outputs ++ (step (run step s xs).state x).outputs,
        (step (run step s xs).state x).running⟩ := by
  rw [run_append s xs [x] h]
  -- whether the loop goes on after `x` makes no difference to its state and outputs
  by_cases hr : (step (run step s xs).state x).running
  · simp [run, hr, Result.ok]
  · simp [run, hr]

/-- Every input of `is` that the loop reads meets `C` at the state before it. -/
def Along (step : σ → ι → Result σ ο) (C : σ → ι → Prop) (s : σ) (is : List ι) : Prop :=
  ∀ xs x, xs ++ [x] <+: is → (run step s xs).running → C (run step s xs).state x

theorem Along.of_prefix {C : σ → ι → Prop} {s : σ} {is js : List ι} (h : Along step C s is)
    (hp : js <+: is) : Along step C s js :=
  fun xs x hx => h xs x (hx.trans hp)

/-- A loop that goes on after its first input. -/
theorem run_cons_of_running {s : σ} {i : ι} (h : (step s i).running) (is : List ι) :
    run step s (i :: is) =
      ⟨(run step (step s i).state is).state,
        (step s i).outputs ++ (run step (step s i).state is).outputs,
        (run step (step s i).state is).running⟩ := by
  rw [run]
  exact if_pos h

/-- The first input meets `C`, and the others do in the loop that goes on after it. -/
theorem along_cons {C : σ → ι → Prop} {s : σ} {i : ι} {is : List ι} :
    Along step C s (i :: is) ↔
      C s i ∧ ((step s i).running → Along step C (step s i).state is) := by
  constructor
  · intro h
    refine ⟨h [] i ⟨is, rfl⟩ rfl, fun hr xs x hp hrun => ?_⟩
    have hC := h (i :: xs) x (List.cons_prefix_cons.mpr ⟨rfl, hp⟩)
    rw [run_cons_of_running hr] at hC
    exact hC hrun
  · rintro ⟨h₁, h₂⟩ xs x hp hrun
    cases xs with
    | nil =>
      obtain ⟨rfl, -⟩ := List.cons_prefix_cons.mp hp
      exact h₁
    | cons y ys =>
      obtain ⟨rfl, hp'⟩ := List.cons_prefix_cons.mp hp
      by_cases hr : (step s y).running
      · rw [run_cons_of_running hr] at hrun ⊢
        exact h₂ hr ys x hp' hrun
      -- the loop has ended at its first input
      · rw [run, if_neg hr] at hrun
        exact absurd hrun hr

instance decidableAlong {C : σ → ι → Prop} [∀ s i, Decidable (C s i)] :
    (s : σ) → (is : List ι) → Decidable (Along step C s is)
  | _, [] => isTrue fun xs x hp => absurd (List.prefix_nil.mp hp) (by simp)
  | s, i :: is =>
    have : ∀ s', Decidable (Along step C s' is) := fun s' => decidableAlong s' is
    decidable_of_iff _ along_cons.symm

/-- **The invariant rule**: what holds at the start and is preserved by every iteration that meets
`C` holds along the run. -/
theorem run_induction {C : σ → ι → Prop} {P : σ → List ο → Prop} {s : σ} (h0 : P s [])
    (hs : ∀ s' outs x, C s' x → P s' outs → P (step s' x).state (outs ++ (step s' x).outputs))
    {is : List ι} (hC : Along step C s is) : P (run step s is).state (run step s is).outputs := by
  induction is using List.reverseRecOn with
  | nil => exact h0
  | append_singleton xs x ih =>
    have ih := ih (hC.of_prefix (List.prefix_append xs [x]))
    by_cases hr : (run step s xs).running
    -- the loop reads `x`
    · rw [run_snoc s xs x hr]
      exact hs _ _ x (hC xs x (List.prefix_refl _) hr) ih
    -- it has ended before
    · rw [run_append_of_not_running s xs [x] hr]
      exact ih

/-- An output of a run is an output of one of its iterations. -/
theorem exists_of_mem_outputs {s : σ} {is : List ι} {o : ο} (h : o ∈ (run step s is).outputs) :
    ∃ xs x, xs ++ [x] <+: is ∧ (run step s xs).running ∧
      o ∈ (step (run step s xs).state x).outputs := by
  induction is using List.reverseRecOn with
  | nil => cases h
  | append_singleton xs x ih =>
    by_cases hr : (run step s xs).running
    · rw [run_snoc s xs x hr] at h
      rcases List.mem_append.mp h with h | h
      -- an output from before
      · obtain ⟨ys, y, hp, hy⟩ := ih h
        exact ⟨ys, y, hp.trans (List.prefix_append xs [x]), hy⟩
      · exact ⟨xs, x, List.prefix_refl _, hr, h⟩
    -- the loop has ended before `x`
    · rw [run_append_of_not_running s xs [x] hr] at h
      obtain ⟨ys, y, hp, hy⟩ := ih h
      exact ⟨ys, y, hp.trans (List.prefix_append xs [x]), hy⟩

/-- **The simulation rule**: two loops whose iterations keep a relation and put out the same, under
a condition on the inputs, put out the same along every run. -/
theorem run_simulation {τ : Type} {step' : τ → ι → Result τ ο} {R : σ → τ → Prop}
    {C : ι → Prop} (hR : ∀ s t i, C i → R s t → R (step s i).state (step' t i).state ∧
      (step s i).outputs = (step' t i).outputs ∧ (step s i).running = (step' t i).running)
    {s : σ} {t : τ} {is : List ι} (hC : ∀ i ∈ is, C i) (h : R s t) :
    R (run step s is).state (run step' t is).state ∧
      (run step s is).outputs = (run step' t is).outputs ∧
      (run step s is).running = (run step' t is).running := by
  induction is generalizing s t with
  | nil => exact ⟨h, rfl, rfl⟩
  | cons i is ih =>
    obtain ⟨h₁, ho, hr⟩ := hR s t i (hC i List.mem_cons_self) h
    by_cases hrun : (step s i).running
    -- both loops go on
    · obtain ⟨h₂, ho', hr'⟩ := ih (fun j hj => hC j (List.mem_cons_of_mem _ hj)) h₁
      simp only [run, hrun, ← hr, if_true]
      exact ⟨h₂, by rw [ho, ho'], hr'⟩
    -- both end here
    · simp only [run, hrun, ← hr]
      exact ⟨h₁, ho, hr⟩

/-- **The refinement rule**: a loop whose iterations are those of another one, on the images of its
states and inputs, runs as the other one. `I` is an invariant of the states and `C` a condition on
the inputs. -/
theorem mapState_run {τ κ : Type} {step' : τ → κ → Result τ ο} {f : σ → τ} {g : ι → κ}
    {I : σ → Prop} {C : ι → Prop} (hI : ∀ s i, I s → I (step s i).state)
    (hstep : ∀ s i, I s → C i → (step s i).mapState f = step' (f s) (g i)) {s : σ} {is : List ι}
    (hs : I s) (hC : ∀ i ∈ is, C i) :
    (run step s is).mapState f = run step' (f s) (is.map g) := by
  induction is generalizing s with
  | nil => rfl
  | cons i is ih =>
    have hi := hstep s i hs (hC i List.mem_cons_self)
    have ih := ih (hI s i hs) fun j hj => hC j (List.mem_cons_of_mem _ hj)
    rw [List.map_cons, run, run, ← hi]
    by_cases hr : (step s i).running
    -- both loops go on
    · simp only [Result.mapState, hr, if_true] at ih ⊢
      rw [← ih]
    -- both end here
    · simp [Result.mapState, hr]

/-- **The projection rule**: a loop of which an observer sees some inputs and outputs and a part of
the state. If that part is changed, and something put out, by what it sees alone, then the loop is
to the observer one that has read nothing else. -/
theorem run_projection {ν π : Type} {view : σ → ν} {obs : ο → Option π}
    {seen : ι → Prop} [DecidablePred seen] {step' : ν → ι → Result ν π}
    (hrun : ∀ s i, (step s i).running)
    (hseen : ∀ s i, seen i → step' (view s) i =
      .ok (view (step s i).state) ((step s i).outputs.filterMap obs))
    (hunseen : ∀ s i, ¬ seen i →
      view (step s i).state = view s ∧ (step s i).outputs.filterMap obs = [])
    (s : σ) (is : List ι) :
    run step' (view s) (is.filter seen) =
      .ok (view (run step s is).state) ((run step s is).outputs.filterMap obs) := by
  induction is generalizing s with
  | nil => rfl
  | cons i is ih =>
    have hcons : run step s (i :: is) = ⟨(run step (step s i).state is).state,
        (step s i).outputs ++ (run step (step s i).state is).outputs,
        (run step (step s i).state is).running⟩ := by
      rw [run]
      exact if_pos (hrun s i)
    rw [hcons, List.filterMap_append]
    by_cases hi : seen i
    · rw [List.filter_cons_of_pos (by simpa using hi), run, hseen s i hi]
      simp only [Result.ok, if_true] at ih ⊢
      rw [ih]
    -- an input that is not seen makes no difference
    · obtain ⟨hv, ho⟩ := hunseen s i hi
      rw [List.filter_cons_of_neg (by simpa using hi), ho, ← hv, ih]
      rfl

/-! ### Inputs that are passed over -/

/-- The inputs that a filter lets pass, which may change with each of them. -/
def passed {γ : Type} (draw : γ → ι → Bool × γ) : γ → List ι → List ι
  | _, [] => []
  | g, i :: is =>
    if (draw g i).1 then i :: passed draw (draw g i).2 is else passed draw (draw g i).2 is

theorem passed_sublist {γ : Type} (draw : γ → ι → Bool × γ) (g : γ) (is : List ι) :
    (passed draw g is).Sublist is := by
  induction is generalizing g with
  | nil => exact List.Sublist.refl _
  | cons i is ih =>
    rw [passed]
    split_ifs
    · exact (ih _).cons_cons i
    · exact (ih _).cons i

/-- Inputs that always pass are all there. -/
theorem filter_passed {γ : Type} {draw : γ → ι → Bool × γ} {always : ι → Bool}
    (h : ∀ g i, always i → (draw g i).1) (g : γ) (is : List ι) :
    (passed draw g is).filter always = is.filter always := by
  induction is generalizing g with
  | nil => rfl
  | cons i is ih =>
    rw [passed]
    by_cases hi : always i
    · rw [if_pos (h g i hi), List.filter_cons_of_pos hi, List.filter_cons_of_pos hi, ih]
    · rw [List.filter_cons_of_neg hi]
      split_ifs
      · rw [List.filter_cons_of_neg hi, ih]
      · exact ih _

/-- **A loop behind a filter** is the loop on the inputs that pass. -/
theorem run_passed {γ : Type} {draw : γ → ι → Bool × γ}
    {filtered : σ × γ → ι → Result (σ × γ) ο}
    (h : ∀ s g i, filtered (s, g) i = if (draw g i).1 then
      (step s i).mapState (·, (draw g i).2) else .ok (s, (draw g i).2) []) (s : σ) (g : γ)
    (is : List ι) :
    (run filtered (s, g) is).mapState Prod.fst = run step s (passed draw g is) := by
  induction is generalizing s g with
  | nil => rfl
  | cons i is ih =>
    by_cases hi : (draw g i).1
    · rw [passed, if_pos hi, run, run, h, if_pos hi]
      by_cases hr : (step s i).running
      · have ih := ih (step s i).state (draw g i).2
        simp only [Result.mapState, hr, if_true] at ih ⊢
        rw [← ih]
      -- the loop ends here, with the filter and without it
      · dsimp only
        rw [if_neg hr, if_neg (show ¬ ((step s i).mapState (·, (draw g i).2)).running from hr)]
        rfl
    · have ih := ih s (draw g i).2
      rw [passed, if_neg hi, run, h, if_neg hi, ← ih]
      rfl

theorem along_true (s : σ) (is : List ι) : Along step (fun _ _ => True) s is :=
  fun _ _ _ _ => trivial

/-! ## Guarded steps -/

section Guarded

variable {ε : Type} {next : σ → ε → Option σ}

/-- A system whose steps have guards, on a list of events: none if one of them is not enabled. -/
def execute (next : σ → ε → Option σ) (s : σ) (es : List ε) : Option σ := es.foldlM next s

theorem execute_append (s : σ) (es es' : List ε) :
    execute next s (es ++ es') = (execute next s es).bind fun s' => execute next s' es' :=
  List.foldlM_append

/-- **The invariant rule** for guarded steps. -/
theorem execute_induction {P : σ → Prop} {s s' : σ} {es : List ε}
    (h : execute next s es = some s') (h0 : P s)
    (hs : ∀ s₁ e s₂, next s₁ e = some s₂ → P s₁ → P s₂) : P s' := by
  induction es generalizing s with
  | nil =>
    obtain rfl := Option.some.inj h
    exact h0
  | cons e es ih =>
    obtain ⟨s₁, h₁, h₂⟩ := Option.bind_eq_some_iff.mp h
    exact ih h₂ (hs s e s₁ h₁ h0)

theorem execute_snoc (s : σ) (es : List ε) (e : ε) :
    execute next s (es ++ [e]) = (execute next s es).bind fun s' => next s' e := by
  rw [execute_append]
  refine congrArg _ (funext fun s' => ?_)
  simp [execute]

/-- Every event of `es` meets `C` at the state it is taken in. -/
def AlongSteps (next : σ → ε → Option σ) (C : σ → ε → Prop) (s : σ) (es : List ε) : Prop :=
  ∀ xs x s', xs ++ [x] <+: es → execute next s xs = some s' → C s' x

theorem AlongSteps.of_prefix {C : σ → ε → Prop} {s : σ} {es es' : List ε}
    (h : AlongSteps next C s es) (hp : es' <+: es) : AlongSteps next C s es' :=
  fun xs x s' hx => h xs x s' (hx.trans hp)

/-- The steps after the first ones meet `C` too. -/
theorem AlongSteps.of_append {C : σ → ε → Prop} {s s' : σ} {es es' : List ε}
    (h : AlongSteps next C s (es ++ es')) (hs : execute next s es = some s') :
    AlongSteps next C s' es' := by
  intro xs x s₁ hp hx
  refine h (es ++ xs) x s₁ ?_ ?_
  · rw [List.append_assoc]
    exact (List.prefix_append_right_inj es).mpr hp
  · rw [execute_append, hs]
    exact hx

theorem alongSteps_cons {C : σ → ε → Prop} {s : σ} {e : ε} {es : List ε} :
    AlongSteps next C s (e :: es) ↔ C s e ∧ ∀ s' ∈ next s e, AlongSteps next C s' es := by
  constructor
  · intro h
    refine ⟨h [] e s (List.prefix_append [e] es) rfl, fun s' hs' => ?_⟩
    have hsplit : AlongSteps next C s ([e] ++ es) := h
    exact hsplit.of_append (by simpa [execute] using hs')
  · rintro ⟨h₁, h₂⟩ xs x s₁ hp hx
    cases xs with
    | nil =>
      obtain ⟨rfl, -⟩ := List.cons_prefix_cons.mp hp
      obtain rfl := Option.some.inj hx
      exact h₁
    | cons y ys =>
      obtain ⟨rfl, hp'⟩ := List.cons_prefix_cons.mp hp
      obtain ⟨s', hs', hx'⟩ := Option.bind_eq_some_iff.mp hx
      exact h₂ s' hs' ys x s₁ hp' hx'

instance decidableAlongSteps {C : σ → ε → Prop} [∀ s e, Decidable (C s e)] :
    (s : σ) → (es : List ε) → Decidable (AlongSteps next C s es)
  | _, [] => isTrue fun xs x s' hp => absurd (List.prefix_nil.mp hp) (by simp)
  | s, e :: es =>
    have : ∀ s', Decidable (AlongSteps next C s' es) := fun s' => decidableAlongSteps s' es
    decidable_of_iff _ alongSteps_cons.symm

/-- **The invariant rule** for guarded steps that meet `C`, with the events so far. -/
theorem execute_history_induction {C : σ → ε → Prop} {P : List ε → σ → Prop} {s s' : σ}
    {es : List ε} (h : execute next s es = some s') (hC : AlongSteps next C s es) (h0 : P [] s)
    (hs : ∀ xs e s₁ s₂, C s₁ e → next s₁ e = some s₂ → P xs s₁ → P (xs ++ [e]) s₂) : P es s' := by
  induction es using List.reverseRecOn generalizing s' with
  | nil =>
    obtain rfl := Option.some.inj h
    exact h0
  | append_singleton xs e ih =>
    rw [execute_snoc] at h
    obtain ⟨s₁, h₁, h₂⟩ := Option.bind_eq_some_iff.mp h
    have ih := ih h₁ (hC.of_prefix (List.prefix_append xs [e]))
    exact hs xs e s₁ s' (hC xs e s₁ (List.prefix_refl _) h₁) h₂ ih

/-- **The simulation rule** for guarded steps that may stutter: each of them is seen as a step of the
other system on the same event, or as none. -/
theorem execute_stuttering {τ : Type} {next' : τ → ε → Option τ} {f : τ → σ}
    (h : ∀ t e t', next' t e = some t' → f t' = f t ∨ next (f t) e = some (f t')) {t t' : τ}
    {es : List ε} (he : execute next' t es = some t') :
    ∃ es', es'.Sublist es ∧ execute next (f t) es' = some (f t') := by
  induction es generalizing t with
  | nil =>
    obtain rfl := Option.some.inj he
    exact ⟨[], List.Sublist.refl _, rfl⟩
  | cons e es ih =>
    obtain ⟨t₁, h₁, h₂⟩ := Option.bind_eq_some_iff.mp he
    obtain ⟨es', hsub, hrun⟩ := ih h₂
    rcases h t e t₁ h₁ with hsame | hstep
    · exact ⟨es', hsub.cons e, hsame ▸ hrun⟩
    · exact ⟨e :: es', hsub.cons_cons e, Option.bind_eq_some_iff.mpr ⟨f t₁, hstep, hrun⟩⟩

/-- **The progress rule**: if the invariant makes each event that meets `C` possible, and is kept by
it, then the events that meet `C` as they come can all be taken. -/
theorem exists_execute {C : σ → ε → Prop} {P : List ε → σ → Prop} {s : σ} {es : List ε}
    (hC : AlongSteps next C s es) (h0 : P [] s)
    (hs : ∀ xs e s₁, C s₁ e → P xs s₁ → ∃ s₂, next s₁ e = some s₂ ∧ P (xs ++ [e]) s₂) :
    ∃ s', execute next s es = some s' ∧ P es s' := by
  induction es using List.reverseRecOn with
  | nil => exact ⟨s, rfl, h0⟩
  | append_singleton xs e ih =>
    obtain ⟨s₁, h₁, hP⟩ := ih (hC.of_prefix (List.prefix_append xs [e]))
    obtain ⟨s₂, h₂, hP'⟩ := hs xs e s₁ (hC xs e s₁ (List.prefix_refl _) h₁) hP
    refine ⟨s₂, ?_, hP'⟩
    rw [execute_snoc, h₁]
    exact h₂

end Guarded

/-! ## Two partial computations -/

section Related

variable {α α' β β' : Type} {R : α → β → Prop} {x : Option α} {y : Option β}

theorem rel_cases (h : Option.Rel R x y) :
    x = none ∧ y = none ∨ ∃ a b, x = some a ∧ y = some b ∧ R a b := by
  cases h with
  | some hab => exact Or.inr ⟨_, _, rfl, rfl, hab⟩
  | none => exact Or.inl ⟨rfl, rfl⟩

/-- Weaker relations, with what is known of the left value. -/
theorem rel_mono {S : α → β → Prop} (h : Option.Rel R x y)
    (hS : ∀ a b, x = some a → R a b → S a b) : Option.Rel S x y := by
  cases h with
  | some hab => exact Option.Rel.some (hS _ _ rfl hab)
  | none => exact Option.Rel.none

/-- Two computations that agree, and go on to agree. -/
theorem rel_bind {S : α' → β' → Prop} {f : α → Option α'} {g : β → Option β'}
    (h : Option.Rel R x y) (hfg : ∀ a b, R a b → Option.Rel S (f a) (g b)) :
    Option.Rel S (x.bind f) (y.bind g) := by
  cases h with
  | some hab => exact hfg _ _ hab
  | none => exact Option.Rel.none

/-- The left one goes on alone, and does not fail. -/
theorem rel_bind_left {S : α' → β → Prop} {f : α → α'} (h : Option.Rel R x y)
    (hf : ∀ a b, R a b → S (f a) b) : Option.Rel S (x.bind fun a => some (f a)) y := by
  cases h with
  | some hab => exact Option.Rel.some (hf _ _ hab)
  | none => exact Option.Rel.none

/-- The right one goes on alone, and does not fail. -/
theorem rel_bind_right {S : α → β' → Prop} {g : β → Option β'} (h : Option.Rel R x y)
    (hg : ∀ a b, R a b → ∃ b', g b = some b' ∧ S a b') : Option.Rel S x (y.bind g) := by
  cases h with
  | some hab =>
    obtain ⟨b', hb', hS⟩ := hg _ _ hab
    rw [Option.bind_some, hb']
    exact Option.Rel.some hS
  | none => exact Option.Rel.none

/-- **The bisimulation rule** for guarded steps: the two systems stop at the same event, or go on in
related states. -/
theorem rel_execute {σ τ ε : Type} {next : σ → ε → Option σ} {next' : τ → ε → Option τ}
    {R : σ → τ → Prop} (h : ∀ s t e, R s t → Option.Rel R (next s e) (next' t e)) {s : σ} {t : τ}
    (hst : R s t) (es : List ε) : Option.Rel R (execute next s es) (execute next' t es) := by
  induction es generalizing s t with
  | nil => exact Option.Rel.some hst
  | cons e es ih => exact rel_bind (h s t e hst) fun s' t' h' => ih h'

end Related

end EventLoop
