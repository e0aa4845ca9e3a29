import Mathlib.Logic.Relation
import Workflow.Proofs.Results
import Workflow.Scope.Graph

/-!
# Which scopes are sound

The checks over the states of a scope find exactly what they are meant to find. The walk that
collects the names control can get to keeps a frontier: whatever a name that is reached leads to is
reached as well, or is in the queue, so nothing is left out when the queue is empty. The sweeps that
collect the names control can get out from stop at a list to which a sweep adds nothing.

The walk looks a state up by its name, so it goes by the first state of a name (`Moves`), while the
sweeps go over all states (`Step`). On states of distinct names there is no difference.

## Main definitions

* `Scope.Step`, `Scope.Moves`: control can go from one state to another
* `Scope.CanLeave`: control can get out of the scope
* `Scope.Sound`: all names are names of states, and control can get out from wherever it gets to
* `Scope.Frontier`: what the walk keeps

## Main results

* `Scope.moves_eq_step`: on distinct names the two relations are the same
* `Scope.mem_walk_iff`: what a walk finds that starts from a frontier
* `Scope.sweep_saturate`: sweeping stops where nothing is added
* `mem_reachable_iff`, `mem_terminating_iff`: the names control can get to, or get out from
* `Scope.check_eq_ok`: a scope without a complaint is a sound one
-/

namespace Workflow.Scope

open Relation (ReflTransGen)

variable {σ : Type}

/-- Control can go from one state of a scope to another. -/
def Step (targets : σ → List String) (states : List (String × σ)) (a b : String) : Prop :=
  ∃ s, (a, s) ∈ states ∧ b ∈ targets s

/-- Control goes from the first state of a name to another one. -/
def Moves (targets : σ → List String) (states : List (String × σ)) (a b : String) : Prop :=
  ∃ s, Json.get? a states = some s ∧ b ∈ targets s

/-- Control can get from a state to one from which it leaves the scope. -/
def CanLeave (targets : σ → List String) (leaves : σ → Bool) (states : List (String × σ))
    (a : String) : Prop :=
  ∃ b s, ReflTransGen (Step targets states) a b ∧ (b, s) ∈ states ∧ leaves s = true

/-- All names in a scope are names of its states, and control can get out of it from every state
that it can get to, when states are looked up by their names: on distinct names, by any number of
steps (`moves_eq_step`). -/
structure Sound (targets : σ → List String) (leaves : σ → Bool) (startAt : String)
    (states : List (String × σ)) : Prop where
  start : startAt ∈ states.map Prod.fst
  resolved : ∀ m ∈ states, ∀ target ∈ targets m.2, target ∈ states.map Prod.fst
  escape : ∀ name, ReflTransGen (Moves targets states) startAt name →
    CanLeave targets leaves states name

/-! ### The first state of a name -/

theorem Moves.step {targets : σ → List String} {states : List (String × σ)} {a b : String}
    (h : Moves targets states a b) : Step targets states a b := by
  obtain ⟨s, found, hb⟩ := h
  exact ⟨s, Json.mem_of_get? found, hb⟩

/-- **On distinct names it makes no difference** whether a state is looked up or any one of its name
is taken. -/
theorem moves_eq_step {targets : σ → List String} {states : List (String × σ)}
    (distinct : (states.map Prod.fst).Nodup) : Moves targets states = Step targets states := by
  funext a b
  refine propext ⟨Moves.step, ?_⟩
  rintro ⟨s, hs, hb⟩
  exact ⟨s, Json.get?_of_mem distinct hs, hb⟩

/-! ### Walking until the queue is empty -/

section Walk

variable {startAt name : String} {states : States} {reached queue : List String}

/-- What a walk keeps: the first name is reached or in the queue, and so is whatever a reached name
leads to; and control can get to all of these names. -/
structure Frontier (startAt : String) (states : States) (reached queue : List String) : Prop where
  start : startAt ∈ reached ∨ startAt ∈ queue
  closed : ∀ a ∈ reached, ∀ b, Moves State.successors states a b → b ∈ reached ∨ b ∈ queue
  sound : ∀ a, a ∈ reached ∨ a ∈ queue → ReflTransGen (Moves State.successors states) startAt a

namespace Frontier

theorem init (startAt : String) (states : States) : Frontier startAt states [] [startAt] where
  start := .inr List.mem_cons_self
  closed := nofun
  sound a ha := by
    obtain rfl : a = startAt := by simpa using ha
    exact .refl

/-- A name that is reached already is passed over. -/
theorem skip (h : Frontier startAt states reached (name :: queue)) (known : name ∈ reached) :
    Frontier startAt states reached queue := by
  have kept {a : String} (ha : a ∈ reached ∨ a ∈ name :: queue) : a ∈ reached ∨ a ∈ queue := by
    rw [List.mem_cons] at ha
    rcases ha with ha | rfl | ha
    · exact .inl ha
    · exact .inl known
    · exact .inr ha
  exact ⟨kept h.start, fun a ha b hb => kept (h.closed a ha b hb),
    fun a ha => h.sound a (ha.imp_right (List.mem_cons_of_mem name))⟩

/-- A name is reached, and what it leads to joins the queue. -/
theorem visit (h : Frontier startAt states reached (name :: queue)) {targets : List String}
    (leads : ∀ b, Moves State.successors states name b ↔ b ∈ targets) :
    Frontier startAt states (name :: reached) (queue ++ targets) := by
  have kept {a : String} (ha : a ∈ reached ∨ a ∈ name :: queue) :
      a ∈ name :: reached ∨ a ∈ queue ++ targets := by
    rw [List.mem_cons, List.mem_append]
    rw [List.mem_cons] at ha
    rcases ha with ha | rfl | ha
    · exact .inl (.inr ha)
    · exact .inl (.inl rfl)
    · exact .inr (.inl ha)
  have got := h.sound name (.inr List.mem_cons_self)
  refine ⟨kept h.start, fun a ha b hb => ?_, fun a ha => ?_⟩
  -- what the new name leads to has just joined the queue, the rest was accounted for
  · rcases List.mem_cons.mp ha with rfl | ha
    · exact .inr (List.mem_append_right _ ((leads b).mp hb))
    · exact kept (h.closed a ha b hb)
  -- what joined the queue is one move behind the name
  · rw [List.mem_cons, List.mem_append] at ha
    rcases ha with (rfl | ha) | ha | ha
    · exact got
    · exact h.sound a (.inl ha)
    · exact h.sound a (.inr (List.mem_cons_of_mem name ha))
    · exact got.tail ((leads a).mpr ha)

/-- When the queue is empty, what is reached is what control can get to. -/
theorem mem_iff (h : Frontier startAt states reached []) :
    name ∈ reached ↔ ReflTransGen (Moves State.successors states) startAt name := by
  have settled {a : String} (ha : a ∈ reached ∨ a ∈ []) : a ∈ reached := ha.resolve_right nofun
  refine ⟨fun hn => h.sound name (.inl hn), fun path => ?_⟩
  -- along the path every name is reached, for none is left waiting
  induction path with
  | refl => exact settled h.start
  | tail _ move ih => exact settled (h.closed _ ih _ move)

end Frontier

/-- **A walk that starts from a frontier** finds the names that control can get to. -/
theorem mem_walk_iff (h : Frontier startAt states reached queue) :
    name ∈ walk states reached queue ↔
      ReflTransGen (Moves State.successors states) startAt name := by
  -- each turn of the walk keeps the frontier: a name is passed over, or visited with what the state
  -- under it leads to, which is nothing when there is no such state
  fun_induction walk states reached queue with
  | case1 reached => exact h.mem_iff
  | case2 reached next queue known ih => exact ih (h.skip (by simpa using known))
  | case3 reached next queue new none ih =>
    have leads (b : String) : Moves State.successors states next b ↔ b ∈ [] := by
      simp [Moves, ← States.get?_eq, none]
    exact ih (List.append_nil queue ▸ h.visit leads)
  | case4 reached next queue new s found ih =>
    have leads (b : String) : Moves State.successors states next b ↔ b ∈ s.successors := by
      simp [Moves, ← States.get?_eq, found]
    exact ih (h.visit leads)

/-- **What is reachable is found**: the names that control can get to. -/
theorem mem_reachable_iff : name ∈ reachable startAt states ↔
    ReflTransGen (Moves State.successors states) startAt name :=
  mem_walk_iff (.init startAt states)

end Walk

/-! ### Sweeping until nothing is added -/

section Saturation

variable {states : States} {names : List String} {name : String}

theorem subset_sweep (states : States) (names : List String) : names ⊆ sweep states names := by
  obtain ⟨new, eq, -⟩ := exists_sweep_eq states names
  rw [eq]
  exact List.subset_append_right new names

theorem sweep_eq_of_length (h : (sweep states names).length = names.length) :
    sweep states names = names := by
  obtain ⟨new, eq, -⟩ := exists_sweep_eq states names
  have none : new = [] := by simpa [eq] using h
  rw [eq, none, List.nil_append]

/-- A sweep adds every state with a successor that is there before. -/
theorem mem_sweep_of_step {a b : String} (hb : b ∈ names)
    (h : Step State.successors states a b) : a ∈ sweep states names := by
  obtain ⟨s, hs, hsb⟩ := h
  -- names are only added, so the successor is still there when the sweep comes to the state
  induction states generalizing names with
  | nil => cases hs
  | cons entry states ih =>
    obtain ⟨key, t⟩ := entry
    rw [sweep_cons]
    rcases List.mem_cons.mp hs with he | hs
    · cases he
      have leads : s.successors.any names.contains = true :=
        List.any_eq_true.mpr ⟨b, hsb, by simpa using hb⟩
      apply subset_sweep
      by_cases known : a ∈ names
      · simp [known]
      · simp [known, leads]
    · apply ih _ hs
      split
      · exact List.mem_cons_of_mem _ hb
      · exact hb

/-- What is true of all names and goes over from a state to those that lead to it is true of all
names after a sweep. -/
theorem forall_mem_sweep {P : String → Prop}
    (hP : ∀ a b, P b → Step State.successors states a b → P a) (h : ∀ name ∈ names, P name) :
    ∀ name ∈ sweep states names, P name := by
  induction states generalizing names with
  | nil => exact h
  | cons entry states ih =>
    obtain ⟨key, s⟩ := entry
    have later (a b : String) (hb : P b) (step : Step State.successors states a b) : P a := by
      obtain ⟨t, ht, hbt⟩ := step
      exact hP a b hb ⟨t, List.mem_cons_of_mem _ ht, hbt⟩
    rw [sweep_cons]
    apply ih later
    -- the state is added for a successor that is there already, from which the property goes over
    split
    · next adds =>
      obtain ⟨-, b, hsb, hb⟩ : key ∉ names ∧ ∃ b ∈ s.successors, b ∈ names := by simpa using adds
      exact List.forall_mem_cons.mpr ⟨hP key b (h b hb) ⟨s, List.mem_cons_self, hsb⟩, h⟩
    · exact h

theorem mem_saturate_of_mem (h : name ∈ names) : name ∈ saturate states names := by
  fun_induction saturate states names with
  | case1 => exact subset_sweep _ _ h
  | case2 _ _ _ ih => exact ih (subset_sweep _ _ h)

/-- **Sweeping stops where nothing is added.** -/
theorem sweep_saturate (states : States) (names : List String) :
    sweep states (saturate states names) = saturate states names := by
  fun_induction saturate states names with
  | case1 names _ same => exact congrArg (sweep states) (sweep_eq_of_length same)
  | case2 _ _ _ ih => exact ih

theorem forall_mem_saturate {P : String → Prop}
    (hP : ∀ a b, P b → Step State.successors states a b → P a) (h : ∀ name ∈ names, P name) :
    ∀ name ∈ saturate states names, P name := by
  fun_induction saturate states names with
  | case1 => exact forall_mem_sweep hP h
  | case2 _ _ _ ih => exact ih (forall_mem_sweep hP h)

/-- **What terminates is found**: the names from which control can get out. -/
theorem mem_terminating_iff :
    name ∈ terminating states ↔ CanLeave State.successors leaves states name := by
  constructor
  · refine forall_mem_saturate (P := CanLeave State.successors leaves states) ?_ ?_ name
    · rintro a b ⟨c, s, hbc, hs, hl⟩ hab
      exact ⟨c, s, hbc.head hab, hs, hl⟩
    · intro a ha
      obtain ⟨⟨_, s⟩, hm, rfl⟩ := List.mem_map.mp ha
      obtain ⟨hs, hl⟩ := List.mem_filter.mp hm
      exact ⟨_, s, .refl, hs, hl⟩
  · rintro ⟨b, s, hab, hs, hl⟩
    -- from the state that leaves back to the name, one sweep for each step
    induction hab using ReflTransGen.head_induction_on with
    | refl => exact mem_saturate_of_mem (List.mem_map_of_mem (List.mem_filter.mpr ⟨hs, hl⟩))
    | head hac _ ih =>
      rw [terminating, ← sweep_saturate]
      exact mem_sweep_of_step ih hac

end Saturation

/-! ### What is complained about -/

theorem map_snd_zipIdx {α : Type} (items : List α) (f : α → Option String)
    (place : Nat → Location) :
    (items.zipIdx.filterMap fun (a, index) => (f a).map fun target => (place index, target)).map
      Prod.snd = items.filterMap f := by
  have dropped : (fun p : α × Nat => f p.1) = f ∘ Prod.fst := rfl
  simp only [List.map_filterMap, Option.map_map, Function.comp_def, Option.map_id_fun', id]
  rw [dropped, ← List.filterMap_map, List.zipIdx_map_fst]

/-- The names that are mentioned in a state are those of its successors, in their order. -/
theorem map_references (s : State) : s.references.map Prod.snd = s.successors := by
  have single (place : Location) (o : Option String) :
      (o.toList.map fun target => (place, target)).map Prod.snd = o.toList := by
    cases o <;> rfl
  have catchers := map_snd_zipIdx s.catchers (fun c => c.transition.next?)
    fun index => [.item "Catch" index, .key "Next"]
  unfold State.references
  rw [List.map_append, List.map_append, single, catchers, State.successors]
  congr 2
  cases s with
  | choice c =>
    have rules := map_snd_zipIdx c.rules Rule.next? fun index =>
      [.item "Choices" index, .key "Next"]
    rw [List.map_append, rules, single]
    rfl
  | _ => rfl

theorem contains_iff {states : States} {name : String} :
    states.contains name = true ↔ name ∈ states.names := by
  simp [States.contains, States.get?, States.names]

theorem unresolved_eq_nil {startAt : String} {states : States} :
    unresolved startAt states = [] ↔ startAt ∈ states.names ∧
      ∀ m ∈ states, ∀ target ∈ m.2.successors, target ∈ states.names := by
  have known (location : Location) (target : String) :
      (if states.contains target = true then none
        else some (Defect.mk location (.unresolved target))) = none ↔ target ∈ states.names := by
    rw [← contains_iff]
    split <;> simp_all
  simp only [unresolved, references, List.filterMap_eq_nil_iff, List.forall_mem_cons,
    List.forall_mem_flatMap, List.forall_mem_map, known]
  apply and_congr_right'
  refine forall₂_congr fun m _ => ?_
  rw [← map_references, List.forall_mem_map]

theorem stranded_eq_nil {startAt : String} {states : States} :
    stranded startAt states = [] ↔
      ∀ name ∈ states.names, name ∈ reachable startAt states → name ∈ terminating states := by
  simp [stranded]

theorem check_eq_ok_iff {startAt : String} {states : States} :
    check startAt states = .ok () ↔
      unresolved startAt states = [] ∧ stranded startAt states = [] := by
  rw [check, defects]
  cases unresolved startAt states with
  | cons d ds => simp
  | nil => cases stranded startAt states <;> simp

/-- All names that control can get to are names of states. -/
theorem mem_names_of_reachable {targets : σ → List String} {startAt name : String}
    {states : List (String × σ)} (hs : startAt ∈ states.map Prod.fst)
    (hr : ∀ m ∈ states, ∀ target ∈ targets m.2, target ∈ states.map Prod.fst)
    (h : ReflTransGen (Moves targets states) startAt name) : name ∈ states.map Prod.fst := by
  induction h with
  | refl => exact hs
  | tail _ move _ =>
    obtain ⟨s, hm, hb⟩ := move.step
    exact hr _ hm _ hb

/-- A scope is sound if its names are names of its states, and control can leave it right from each
of them. -/
theorem Sound.of_leaves {targets : σ → List String} {leaves : σ → Bool} {startAt : String}
    {states : List (String × σ)} (start : startAt ∈ states.map Prod.fst)
    (resolved : ∀ m ∈ states, ∀ target ∈ targets m.2, target ∈ states.map Prod.fst)
    (out : ∀ m ∈ states, leaves m.2 = true) : Sound targets leaves startAt states := by
  refine ⟨start, resolved, fun name path => ?_⟩
  obtain ⟨⟨_, s⟩, hs, rfl⟩ := List.mem_map.mp (mem_names_of_reachable start resolved path)
  exact ⟨_, s, .refl, hs, out _ hs⟩

/-- **A scope without a complaint is a sound one.** -/
theorem check_eq_ok {startAt : String} {states : States} :
    check startAt states = .ok () ↔ Sound State.successors leaves startAt states := by
  rw [check_eq_ok_iff, unresolved_eq_nil, stranded_eq_nil]
  constructor
  · rintro ⟨⟨hs, hr⟩, he⟩
    refine ⟨hs, hr, fun name hn => ?_⟩
    exact mem_terminating_iff.mp
      (he name (mem_names_of_reachable hs hr hn) (mem_reachable_iff.mpr hn))
  · rintro ⟨hs, hr, he⟩
    refine ⟨⟨hs, hr⟩, fun name _ hn => ?_⟩
    exact mem_terminating_iff.mpr (he name (mem_reachable_iff.mp hn))

end Workflow.Scope
