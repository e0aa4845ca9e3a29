import Mathlib.Order.Bounds.Basic
import Mathlib.Order.Lattice.Nat
import Workflow.Proofs.DistinctKeys

/-!
# Registration

What a scope holds is said by its history alone. A registration stands until its name is removed:
the names of a scope are those with a registration that stands, in the order of the first one that
does, and the last one that does says which state is found.

## Main definitions

* `Draft.registrations`: the places in a history where the registrations of a name are that stand
* `Draft.Records`: states are those that a history of registrations and removals leaves
* `Draft.States.others`: the states under all names but one

## Main results

* `Draft.Records.edit`: one change of a draft keeps its states to its history
* `Draft.records_editAll`, `Draft.records_registerAll`: the states of a draft of a machine or a
  branch are those that its history leaves
* `Draft.States.others_register`, `Draft.States.others_remove`: other names are left alone
-/

namespace Workflow

namespace Draft

/-! ### The history of a name -/

/-- The places in a history where the registrations of a name are that stand: the name is not
removed behind them. -/
def registrations (history : List Edit) (name : String) : Set ℕ :=
  {i | (∃ s, history[i]? = some (.register name s)) ∧ .remove name ∉ history.drop (i + 1)}

section

variable {history : List Edit} {name : String} {i : ℕ} {e : Edit}

theorem lt_length_of_mem_registrations (h : i ∈ registrations history name) :
    i < history.length := by
  obtain ⟨⟨s, hs⟩, -⟩ := h
  exact (List.getElem?_eq_some_iff.mp hs).1

/-- What one more change does to the registrations that stand. -/
theorem mem_registrations_snoc :
    i ∈ registrations (history ++ [e]) name ↔
      (i ∈ registrations history name ∧ e ≠ .remove name) ∨
        (i = history.length ∧ ∃ s, e = .register name s) := by
  -- a place is in the old history, the one of the last change, or in neither
  rcases lt_trichotomy i history.length with h | rfl | h
  · have later : (history ++ [e]).drop (i + 1) = history.drop (i + 1) ++ [e] :=
      List.drop_append_of_le_length h
    simp only [registrations, Set.mem_ofPred_eq, List.getElem?_append_left h, later,
      List.mem_append, List.mem_singleton, not_or, ne_eq, and_assoc, h.ne, false_and, or_false,
      eq_comm]
  · simp [registrations]
  · constructor
    · intro hi
      have bound := lt_length_of_mem_registrations hi
      rw [List.length_append, List.length_singleton] at bound
      omega
    · rintro (⟨hi, -⟩ | ⟨rfl, -⟩)
      · exact absurd (lt_length_of_mem_registrations hi) h.not_gt
      · exact absurd h (lt_irrefl _)

theorem registrations_remove : registrations (history ++ [.remove name]) name = ∅ := by
  ext i
  simp [mem_registrations_snoc]

theorem registrations_register {s : State} :
    registrations (history ++ [.register name s]) name =
      insert history.length (registrations history name) := by
  ext i
  simp [mem_registrations_snoc, or_comm]

/-- A change of another name, or of none, leaves the registrations of a name as they are. -/
theorem registrations_other (hr : ∀ s, e ≠ .register name s) (hd : e ≠ .remove name) :
    registrations (history ++ [e]) name = registrations history name := by
  ext i
  simp [mem_registrations_snoc, hr, hd]

theorem registrations_register_of_ne {other : String} {s : State} (h : name ≠ other) :
    registrations (history ++ [.register name s]) other = registrations history other :=
  registrations_other (by simp [h]) nofun

theorem registrations_remove_of_ne {other : String} (h : name ≠ other) :
    registrations (history ++ [.remove name]) other = registrations history other :=
  registrations_other nofun (by simp [h])

/-- What was registered is still to be seen after one more change. -/
theorem getElem?_snoc_of_mem (h : i ∈ registrations history name) :
    (history ++ [e])[i]? = history[i]? :=
  List.getElem?_append_left (lt_length_of_mem_registrations h)

end

/-! ### What a history leaves -/

/-- The first registration of a name that stands is before that of another name. -/
def RegisteredBefore (history : List Edit) (a b : String) : Prop :=
  ∃ i j, IsLeast (registrations history a) i ∧ IsLeast (registrations history b) j ∧ i < j

/-- States are those that a history of registrations and removals leaves. -/
structure Records (history : List Edit) (states : States) : Prop where
  nodup : (States.names states).Nodup
  mem_names : ∀ name, name ∈ States.names states ↔ (registrations history name).Nonempty
  get? : ∀ name s, States.get? name states = some s ↔
    ∃ i, IsGreatest (registrations history name) i ∧ history[i]? = some (.register name s)
  order : (States.names states).Pairwise (RegisteredBefore history)

namespace States

theorem names_remove (name : String) (states : States) :
    names (remove name states) = (names states).erase name := by
  rw [remove_eq_eraseP, names, names, List.erase_eq_eraseP, List.eraseP_map]
  simp only [Function.comp_def, beq_eq_decide, eq_comm]

theorem get?_remove_of_ne {name other : String} (h : other ≠ name) (states : States) :
    get? other (remove name states) = get? other states := by
  rw [remove_eq_eraseP]
  exact Json.get?_eraseP_of_ne h states

theorem get?_eq_none {name : String} {states : States} :
    get? name states = none ↔ name ∉ names states :=
  Json.get?_eq_none

end States

namespace Records

variable {history : List Edit} {states : States}

theorem empty : Records [] [] where
  nodup := List.nodup_nil
  mem_names name := by simp [States.names, registrations, Set.Nonempty]
  get? name s := by simp [States.get?, Json.get?]
  order := .nil

/-- A name that is there has a first registration that stands. -/
theorem exists_isLeast (h : Records history states) {name : String}
    (hm : name ∈ States.names states) : ∃ i, IsLeast (registrations history name) i :=
  ⟨_, Nat.sInf_mem ((h.mem_names name).mp hm), fun _ => Nat.sInf_le⟩

theorem registrations_eq_empty (h : Records history states) {name : String}
    (hm : name ∉ States.names states) : registrations history name = ∅ :=
  Set.not_nonempty_iff_eq_empty.mp fun hn => hm ((h.mem_names name).mpr hn)

/-- A registration does not make a name begin later. -/
theorem isLeast_register {name other : String} {s : State} {i : ℕ}
    (h : IsLeast (registrations history other) i) :
    IsLeast (registrations (history ++ [.register name s]) other) i := by
  constructor
  · exact mem_registrations_snoc.mpr (.inl ⟨h.1, nofun⟩)
  · intro j hj
    rcases mem_registrations_snoc.mp hj with ⟨hj, -⟩ | ⟨rfl, -⟩
    · exact h.2 hj
    · exact (lt_length_of_mem_registrations h.1).le

/-- The last registration is the one that was just made. -/
theorem isGreatest_register {name : String} {s : State} :
    IsGreatest (registrations (history ++ [.register name s]) name) history.length := by
  rw [registrations_register]
  refine ⟨Set.mem_insert .., ?_⟩
  rintro j (rfl | hj)
  · exact le_rfl
  · exact (lt_length_of_mem_registrations hj).le

/-- **Registering a state.** It is found under its name from now on. A name that was there keeps its
place, and a new one is behind all others, as it was registered after them. -/
theorem register (h : Records history states) (name : String) (s : State) :
    Records (history ++ [.register name s]) (States.register name s states) where
  nodup := Json.nodup_insert name s h.nodup
  mem_names other := by
    have known : other ∈ States.names (States.register name s states) ↔
        other ∈ States.names states ∨ other = name := by
      rw [States.names_register]
      split <;> simp_all
    rw [known, h.mem_names]
    by_cases hn : name = other
    · subst hn
      simp [registrations_register]
    · rw [registrations_register_of_ne hn]
      simp [Ne.symm hn]
  get? other t := by
    rw [States.get?_register]
    by_cases hn : name = other
    · subst hn
      rw [if_pos rfl, Option.some.injEq]
      constructor
      · rintro rfl
        exact ⟨_, isGreatest_register, by simp⟩
      · rintro ⟨i, last, found⟩
        obtain rfl := last.unique isGreatest_register
        simpa using found
    · -- the registrations of another name are the same, and are still to be seen
      rw [if_neg hn, h.get?, registrations_register_of_ne hn]
      refine exists_congr fun i => and_congr_right fun last => ?_
      rw [getElem?_snoc_of_mem last.1]
  order := by
    have kept : (States.names states).Pairwise
        (RegisteredBefore (history ++ [.register name s])) :=
      h.order.imp fun ⟨i, j, first, second, lt⟩ =>
        ⟨i, j, isLeast_register first, isLeast_register second, lt⟩
    rw [States.names_register]
    split
    · exact kept
    · next hm =>
      refine List.pairwise_append.mpr ⟨kept, List.pairwise_singleton .., ?_⟩
      intro other ho last hl
      obtain rfl := List.mem_singleton.mp hl
      -- the name has no other registration that stands than the one that was just made
      obtain ⟨i, first⟩ := h.exists_isLeast ho
      refine ⟨i, history.length, isLeast_register first, ?_,
        lt_length_of_mem_registrations first.1⟩
      rw [registrations_register, h.registrations_eq_empty hm, insert_empty_eq]
      exact isLeast_singleton

/-- **Removing a name.** It is gone with all of its registrations, and the others stay. -/
theorem remove (h : Records history states) (name : String) :
    Records (history ++ [.remove name]) (States.remove name states) := by
  have mem {other : String} : other ∈ States.names (States.remove name states) ↔
      other ≠ name ∧ other ∈ States.names states := by
    rw [States.names_remove, h.nodup.mem_erase_iff]
  refine ⟨?_, fun other => ?_, fun other s => ?_, ?_⟩
  · rw [States.names_remove]
    exact h.nodup.erase name
  · rw [mem]
    by_cases hn : other = name
    · subst hn
      simp [registrations_remove]
    · simp [registrations_remove_of_ne (Ne.symm hn), hn, h.mem_names]
  · by_cases hn : other = name
    · subst hn
      have gone : States.get? other (States.remove other states) = none :=
        States.get?_eq_none.mpr fun hm => (mem.mp hm).1 rfl
      simp [gone, registrations_remove, IsGreatest]
    · rw [States.get?_remove_of_ne hn, h.get?, registrations_remove_of_ne (Ne.symm hn)]
      refine exists_congr fun i => and_congr_right fun last => ?_
      rw [getElem?_snoc_of_mem last.1]
  · rw [States.names_remove]
    -- names that are left have kept all of their registrations
    refine (h.order.sublist (List.erase_sublist ..)).imp_of_mem ?_
    intro a b ha hb before
    have ha := (h.nodup.mem_erase_iff.mp ha).1
    have hb := (h.nodup.mem_erase_iff.mp hb).1
    rw [RegisteredBefore, registrations_remove_of_ne ha.symm, registrations_remove_of_ne hb.symm]
    exact before

/-- A change that is about no name leaves everything as it is. -/
theorem skip (h : Records history states) {e : Edit} (hr : ∀ name s, e ≠ .register name s)
    (hd : ∀ name, e ≠ .remove name) : Records (history ++ [e]) states := by
  have same (name : String) : registrations (history ++ [e]) name = registrations history name :=
    registrations_other (hr name) (hd name)
  refine ⟨h.nodup, fun name => ?_, fun name s => ?_, h.order.imp ?_⟩
  · rw [same, h.mem_names]
  · rw [h.get?, same]
    refine exists_congr fun i => and_congr_right fun last => ?_
    rw [getElem?_snoc_of_mem last.1]
  · intro a b before
    rw [RegisteredBefore, same, same]
    exact before

/-- **One change keeps the states of a draft to its history.** -/
theorem edit {m : Machine} (h : Records history m.states) (e : Edit) :
    Records (history ++ [e]) (m.edit e).states := by
  cases e with
  | register name s => exact h.register name s
  | remove name => exact h.remove name
  | _ => exact h.skip nofun nofun

end Records

/-- **The states of a draft are those that its history leaves.** -/
theorem records_editAll (history : List Edit) :
    Records history (Machine.editAll {} history).states := by
  induction history using List.reverseRecOn with
  | nil => exact .empty
  | append_singleton history e ih =>
    rw [Machine.editAll, List.foldl_append]
    exact ih.edit e

/-- A branch after states have been registered in it one by one. -/
def Branch.registerAll (b : Branch State) (calls : List (String × State)) : Branch State :=
  calls.foldl (fun b call => b.register call.1 call.2) b

/-- The states of a branch are those that its registrations leave. -/
theorem records_registerAll (comment startAt : Option String) (calls : List (String × State)) :
    Records (calls.map fun call => .register call.1 call.2)
      (Branch.registerAll ⟨comment, startAt, []⟩ calls).states := by
  induction calls using List.reverseRecOn with
  | nil => exact .empty
  | append_singleton calls call ih =>
    rw [Branch.registerAll, List.foldl_append, List.map_append]
    exact ih.register call.1 call.2

/-! ### Other names -/

namespace States

/-- The states under all names but one, in their order. -/
def others (name : String) (states : States) : States :=
  states.filter fun entry => entry.1 ≠ name

theorem others_register (name : String) (s : State) (states : States) :
    others name (register name s states) = others name states := by
  induction states with
  | nil => simp [others, register, Json.insert]
  | cons entry states ih =>
    obtain ⟨key, t⟩ := entry
    by_cases h : key = name
    · simp [others, register, Json.insert, h]
    · simpa [others, register, Json.insert, h] using ih

theorem others_remove (name : String) (states : States) :
    others name (remove name states) = others name states := by
  induction states with
  | nil => rfl
  | cons entry states ih =>
    obtain ⟨key, t⟩ := entry
    by_cases h : key = name
    · simp [others, remove, h]
    · simpa [others, remove, h] using ih

end States

end Draft

end Workflow
