import Workflow.Proofs.FieldValues
import Workflow.Proofs.Registration
import Workflow.Proofs.Validity

/-!
# Edits that control does not see

A name that no state of another name leads to, and at which control does not start, is never got
to. So it makes no difference to the soundness of a scope which states there are under it, as long
as the names they mention are names of the scope: whether they lead only to themselves, or nowhere,
or back among the others. A machine that could be built can therefore still be built when such a
name is removed from its draft, or is registered as a new one.

## Main definitions

* `Scope.AgreeAside`: two scopes that agree but for a name that is not got to
* `Draft.Aside`: a change of a draft that is made at such a name, and what it makes of the machine

## Main results

* `Scope.AgreeAside.step`, `Scope.AgreeAside.moves`, `Scope.reach_of_ne`: what can be got to in one
  of the scopes can be got to in the other
* `Scope.Sound.aside`: a scope that agrees with a sound one is sound
* `Draft.Machine.build_edit`, `Draft.Machine.build_editAll`: a draft after a change aside, and
  after any number of them
* `Draft.Machine.build_aside`: removing a state, and registering a new one
-/

namespace Workflow

/-! ### Scopes that agree aside from a name -/

namespace Scope

open Relation (ReflTransGen)

variable {σ : Type} {targets : σ → List String} {leaves : σ → Bool} {startAt name : String}
  {states states' : List (String × σ)}

/-- **What control can get to** from another name is not the name aside, and can be got to in the
other scope as well: what holds of each step holds of all of them. -/
theorem reach_of_ne {R R' : String → String → Prop}
    (keep : ∀ {a b}, a ≠ name → R a b → b ≠ name ∧ R' a b) {a b : String} (ha : a ≠ name)
    (path : ReflTransGen R a b) : b ≠ name ∧ ReflTransGen R' a b := by
  induction path with
  | refl => exact ⟨ha, .refl⟩
  | tail _ last ih =>
    obtain ⟨other, path⟩ := ih
    obtain ⟨next, last⟩ := keep other last
    exact ⟨next, path.tail last⟩

/-- Two scopes have the same states under all names but one, also when these are looked up, and none
of these states leads to that name. -/
structure AgreeAside (targets : σ → List String) (name : String)
    (states states' : List (String × σ)) : Prop where
  same : ∀ e : String × σ, e.1 ≠ name → (e ∈ states ↔ e ∈ states')
  found : ∀ a, a ≠ name → Json.get? a states = Json.get? a states'
  unnamed : ∀ e ∈ states, e.1 ≠ name → name ∉ targets e.2

namespace AgreeAside

theorem symm (h : AgreeAside targets name states states') :
    AgreeAside targets name states' states where
  same e he := (h.same e he).symm
  found a ha := (h.found a ha).symm
  unnamed e hm he := h.unnamed e ((h.same e he).mpr hm) he

/-- Control goes from a state of another name to one of another name, and does so in both scopes. -/
theorem step (h : AgreeAside targets name states states') {a b : String} (ha : a ≠ name)
    (step : Step targets states a b) : b ≠ name ∧ Step targets states' a b := by
  obtain ⟨s, hs, hb⟩ := step
  refine ⟨?_, s, (h.same _ ha).mp hs, hb⟩
  rintro rfl
  exact h.unnamed _ hs ha hb

/-- The same when the state is looked up. -/
theorem moves (h : AgreeAside targets name states states') {a b : String} (ha : a ≠ name)
    (move : Moves targets states a b) : b ≠ name ∧ Moves targets states' a b := by
  refine ⟨(h.step ha move.step).1, ?_⟩
  obtain ⟨s, found, hb⟩ := move
  exact ⟨s, h.found a ha ▸ found, hb⟩

theorem canLeave (h : AgreeAside targets name states states') {a : String} (ha : a ≠ name)
    (leave : CanLeave targets leaves states a) : CanLeave targets leaves states' a := by
  obtain ⟨b, s, path, hs, hl⟩ := leave
  obtain ⟨other, path⟩ := reach_of_ne h.step ha path
  exact ⟨b, s, path, (h.same _ other).mp hs, hl⟩

end AgreeAside

/-- **A scope that agrees with a sound one** aside from a name at which control does not start is
sound if the names in it are names of its states. -/
theorem Sound.aside (h : Sound targets leaves startAt states)
    (agree : AgreeAside targets name states states') (start : startAt ≠ name)
    (resolved : ∀ e ∈ states', ∀ target ∈ targets e.2, target ∈ states'.map Prod.fst) :
    Sound targets leaves startAt states' where
  start := by
    obtain ⟨⟨_, s⟩, hs, rfl⟩ := List.mem_map.mp h.start
    exact List.mem_map_of_mem ((agree.same _ start).mp hs)
  resolved := resolved
  escape other path := by
    obtain ⟨ho, path⟩ := reach_of_ne agree.symm.moves start path
    exact agree.canLeave ho (h.escape other path)

/-- The states without the first one under a name that no other state mentions. -/
theorem Sound.eraseP (h : Sound targets leaves startAt states) (start : startAt ≠ name)
    (unnamed : ∀ e ∈ states, e.1 ≠ name → name ∉ targets e.2) :
    Sound targets leaves startAt (states.eraseP fun e => e.1 = name) := by
  have same (e : String × σ) (he : e.1 ≠ name) :
      e ∈ states ↔ e ∈ states.eraseP fun e => e.1 = name :=
    (List.mem_eraseP_of_neg (by simpa using he)).symm
  have found (a : String) (ha : a ≠ name) := (Json.get?_eraseP_of_ne ha states).symm
  refine h.aside ⟨same, found, unnamed⟩ start fun e he target ht => ?_
  have before := List.mem_of_mem_eraseP he
  by_cases hn : target = name
  · -- only a state of the same name may mention it, and such a one is still there
    have own : e.1 = name := by
      by_contra other
      exact unnamed e before other (hn ▸ ht)
    exact List.mem_map.mpr ⟨e, he, own.trans hn.symm⟩
  · obtain ⟨⟨_, s⟩, hs, rfl⟩ := List.mem_map.mp (h.resolved e before target ht)
    exact List.mem_map_of_mem ((same _ hn).mp hs)

/-- The states with one more behind them, under a new name. -/
theorem Sound.snoc (h : Sound targets leaves startAt states) (new : name ∉ states.map Prod.fst)
    {s : σ} (resolved : ∀ target ∈ targets s, target = name ∨ target ∈ states.map Prod.fst) :
    Sound targets leaves startAt (states ++ [(name, s)]) := by
  have same (e : String × σ) (he : e.1 ≠ name) : e ∈ states ↔ e ∈ states ++ [(name, s)] := by
    rw [List.mem_append, List.mem_singleton, or_iff_left]
    rintro rfl
    exact he rfl
  -- every target is registered, so a name that is not is mentioned nowhere
  have unnamed (e : String × σ) (he : e ∈ states) (_ : e.1 ≠ name) : name ∉ targets e.2 :=
    fun mentioned => new (h.resolved e he name mentioned)
  have start : startAt ≠ name := fun he => new (he ▸ h.start)
  have found (a : String) (ha : a ≠ name) :
      Json.get? a states = Json.get? a (states ++ [(name, s)]) := by
    rw [Json.get?_append, Json.get?, if_neg ha.symm, Json.get?, Option.or_none]
  refine h.aside ⟨same, found, unnamed⟩ start fun e he target ht => ?_
  rw [List.map_append, List.mem_append]
  rcases List.mem_append.mp he with he | he
  · exact .inl (h.resolved e he target ht)
  · obtain rfl := List.mem_singleton.mp he
    rcases resolved target ht with rfl | known
    · exact .inr List.mem_cons_self
    · exact .inl known

end Scope

namespace Draft

/-! ### Drafts without a state, and with one more -/

namespace State

theorem buildStates_remove {ds : States} {ss : Workflow.States} (h : buildStates ds = .ok ss)
    (name : String) :
    buildStates (States.remove name ds) = .ok (ss.eraseP fun e => e.1 = name) := by
  induction ds generalizing ss with
  | nil => cases h; rfl
  | cons entry ds ih =>
    obtain ⟨key, d⟩ := entry
    simp only [buildStates, bind_eq_ok, Except.ok.injEq] at h
    obtain ⟨s, hs, ss, hss, rfl⟩ := h
    by_cases hk : key = name
    · rw [States.remove, if_pos hk, List.eraseP_cons_of_pos (by simpa using hk), hss]
    · rw [States.remove, if_neg hk, List.eraseP_cons_of_neg (by simpa using hk), buildStates, hs]
      exact congrArg (fun r => r >>= fun ss => .ok ((key, s) :: ss)) (ih hss)

theorem buildStates_append {ds ds' : States} {ss ss' : Workflow.States}
    (h : buildStates ds = .ok ss) (h' : buildStates ds' = .ok ss') :
    buildStates (ds ++ ds') = .ok (ss ++ ss') := by
  induction ds generalizing ss with
  | nil => cases h; exact h'
  | cons entry ds ih =>
    obtain ⟨key, d⟩ := entry
    simp only [buildStates, bind_eq_ok, Except.ok.injEq] at h
    obtain ⟨s, hs, ss, hss, rfl⟩ := h
    rw [List.cons_append, buildStates, hs, ih hss]
    rfl

theorem buildStates_register {ds : States} {ss : Workflow.States} (h : buildStates ds = .ok ss)
    {name : String} (new : name ∉ States.names ds) {d : State} {s : Workflow.State}
    (built : d.build = .ok s) :
    buildStates (States.register name d ds) = .ok (ss ++ [(name, s)]) := by
  have single : buildStates [(name, d)] = .ok [(name, s)] := by
    rw [buildStates, built]
    rfl
  rw [States.register, Json.insert_of_notMem new]
  exact buildStates_append h single

end State

/-- A change of the draft of a machine at a name that control does not get to, and the machine that
is built of the draft then. -/
inductive Aside (m : Workflow.Machine) : Edit → Workflow.Machine → Prop
  | remove {name : String} (start : m.startAt ≠ name)
    (unnamed : ∀ e ∈ m.states, e.1 ≠ name → name ∉ e.2.successors) :
    Aside m (.remove name) { m with states := m.states.eraseP fun e => e.1 = name }
  | register {name : String} {d : State} {s : Workflow.State} (new : name ∉ m.states.names)
    (built : d.build = .ok s)
    (resolved : ∀ target ∈ s.successors, target = name ∨ target ∈ m.states.names) :
    Aside m (.register name d) { m with states := m.states ++ [(name, s)] }

/-- Changes one behind the other, each of them aside in the machine that the ones before it left. -/
inductive Asides : Workflow.Machine → List Edit → Workflow.Machine → Prop
  | nil {m : Workflow.Machine} : Asides m [] m
  | cons {m m' m'' : Workflow.Machine} {e : Edit} {edits : List Edit} (first : Aside m e m')
    (others : Asides m' edits m'') : Asides m (e :: edits) m''

namespace Machine

variable {b : Machine} {m m' : Workflow.Machine}

/-- What was built is a sound scope of states that were built. -/
theorem scope_of_build (h : b.build = .ok m) :
    b.startAt = some m.startAt ∧ State.buildStates b.states = .ok m.states ∧
      Scope.Sound Workflow.State.successors Scope.leaves m.startAt m.states := by
  obtain ⟨-, startAt, -, start, states, hs, check, rfl⟩ := build_eq_ok.mp h
  exact ⟨start.symm, hs, Scope.check_eq_ok.mp check⟩

/-- A draft that could be built can be built with other states that form a sound scope. -/
theorem build_withStates {ds : States} {ss : Workflow.States} (h : b.build = .ok m)
    (hs : State.buildStates ds = .ok ss)
    (sound : Scope.Sound Workflow.State.successors Scope.leaves m.startAt ss) :
    ({ b with states := ds } : Machine).build = .ok { m with states := ss } := by
  obtain ⟨timeout, startAt, named, start, states, -, -, rfl⟩ := build_eq_ok.mp h
  exact build_eq_ok.mpr ⟨timeout, startAt, named, start, ss, hs, Scope.check_eq_ok.mpr sound, rfl⟩

/-- **A change aside** leaves a draft that can be built. -/
theorem build_edit {e : Edit} (h : b.build = .ok m) (aside : Aside m e m') :
    (b.edit e).build = .ok m' := by
  obtain ⟨-, hs, sound⟩ := scope_of_build h
  cases aside with
  | remove start unnamed =>
    exact build_withStates h (State.buildStates_remove hs _) (sound.eraseP start unnamed)
  | register new built resolved =>
    have fresh := new
    rw [Workflow.States.names, State.names_of_buildStates hs] at fresh
    exact build_withStates h (State.buildStates_register hs fresh built) (sound.snoc new resolved)

/-- **Any number of changes aside** leave a draft that can be built. -/
theorem build_editAll {edits : List Edit} (h : b.build = .ok m) (asides : Asides m edits m') :
    (b.editAll edits).build = .ok m' := by
  induction asides generalizing b with
  | nil => exact h
  | cons first _ ih => exact ih (build_edit h first)

/-- **Edits away from where control gets to keep a machine valid.** If a state at which the machine
does not start is mentioned by no other state, then the draft can be built without it, to the
machine without it. And a draft of a state that can be built and mentions only names in the machine
and its own can be registered under a new name, which is then the last one of the machine. -/
theorem build_aside (h : b.build = .ok m) :
    (∀ name ∈ States.names b.states, b.startAt ≠ some name →
      (∀ e ∈ m.states, e.1 ≠ name → name ∉ e.2.successors) →
      (b.remove name).build = .ok { m with states := m.states.eraseP fun e => e.1 = name }) ∧
    ∀ name d s, name ∉ States.names b.states → d.build = .ok s →
      (∀ target ∈ s.successors, target = name ∨ target ∈ States.names b.states) →
      (b.register name d).build = .ok { m with states := m.states ++ [(name, s)] } := by
  obtain ⟨start, hs, -⟩ := scope_of_build h
  have names : m.states.names = States.names b.states := State.names_of_buildStates hs
  constructor
  · intro name _ other unnamed
    have aside : m.startAt ≠ name := fun he => other (he ▸ start)
    exact build_edit h (.remove aside unnamed)
  · intro name d s new built resolved
    rw [← names] at new resolved
    exact build_edit h (.register new built resolved)

/-- A draft with a state aside that leads only to itself. -/
def looping : Machine where
  startAt := some "Go"
  states := [
    ("Loop", .pass { transition := some (.next "Loop") }),
    ("Go", .wait { delay := some (.seconds 1), transition := some .finish })]

/-- The state aside is removed, or another one that leads only to itself is registered. -/
theorem build_aside_looping :
    let loop (name : String) : Workflow.State := .pass ⟨{}, none, none, none, .next name⟩
    let go : Workflow.State := .wait ⟨{}, .seconds 1, .finish⟩
    let m : Workflow.Machine := ⟨none, "Go", none, none, [("Loop", loop "Loop"), ("Go", go)]⟩
    looping.build = .ok m ∧
      (looping.remove "Loop").build = .ok { m with states := [("Go", go)] } ∧
      (looping.register "Spin" (.pass { transition := some (.next "Spin") })).build =
        .ok { m with states := [("Loop", loop "Loop"), ("Go", go), ("Spin", loop "Spin")] } := by
  intro loop go m
  -- the walk over the scope does not unfold by itself, so it is run by the kernel
  have passes : (Scope.check "Go" m.states).toOption.isSome = true := by decide +kernel
  obtain ⟨⟨⟩, check⟩ := exists_ok_of_isSome passes
  have built : looping.build = .ok m :=
    build_eq_ok.mpr ⟨nofun, "Go", by decide, rfl, m.states, rfl, check, rfl⟩
  have ahead : (loop "Spin").successors = ["Spin"] := rfl
  obtain ⟨remove, register⟩ := build_aside built
  refine ⟨built, remove "Loop" (by decide) (by decide) ?_,
    register "Spin" _ (loop "Spin") (by decide) rfl (by simp [ahead])⟩
  intro e he other mentioned
  obtain rfl | rfl : e = ("Loop", loop "Loop") ∨ e = ("Go", go) := by simpa [m] using he
  · exact other rfl
  · cases mentioned

end Machine

end Draft

end Workflow
