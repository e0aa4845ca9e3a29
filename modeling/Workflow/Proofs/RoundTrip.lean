import Workflow.Proofs.Likeness

/-!
# A machine and its value define each other

The value of a machine that was built defines a draft, and the draft builds to that machine again:
the same fields in the same order, down to the sign of a zero and the precision of a timestamp.

## Main results

* `Draft.Machine.value_round_trip`: the value of a machine defines the machine
-/

namespace Workflow.Draft.Machine

/-- **The value of a machine loses nothing**: it is read as a draft that builds to the very machine
it was written from, which is also like itself. -/
theorem value_round_trip {b : Machine} (hb : b.Distinct) {m : Workflow.Machine}
    (h : b.build = .ok m) :
    ∃ b', ofJson m.toJson = .ok b' ∧ b'.build = .ok m ∧ alike m m = true := by
  have again := build_toDraft h
  have distinct := distinct_toJson hb h
  refine ⟨m.toDraft, ?_, again, m.alike_self again distinct⟩
  rw [ofJson, m.ofJson_toJson again distinct]
  exact m.draft_toDocument again

/-- A draft with a branch, in which a choice looks at negative zero and at a leap second. -/
def branching : Machine where
  startAt := some "Fan"
  version := some "1.0"
  states := [
    ("Fan", .parallel {
      branches := [{
        startAt := some "Ask",
        states := [
          ("Ask", .choice {
            rules := [{
              condition := some (.and [
                .comparison .equals "$.x" (.numeric (.double (.finite .negativeZero))),
                .not (.comparison .lessThan "$.t" (.timestamp ⟨59, true, some 0, fun _ => rfl⟩))]),
              transition := some (.next "Stop") }],
            default := some "Stop" }),
          ("Stop", .fail ⟨none, some "E", none⟩)] }],
      resultPath := some .discard,
      retriers := [⟨["States.ALL"], none, some 2, some .two⟩],
      catchers := [{ errors := ["E"], transition := some .finish }],
      transition := some (.next "Rest") }),
    ("Rest", .pass {
      result := some (.text "[1, 1.0]"),
      parameters := some (.object [("b", .null), ("a", .array [])]),
      transition := some .finish })]

theorem distinct_branching : branching.Distinct :=
  ⟨by decide, by simp [branching, State.DistinctStates, State.Distinct, State.DistinctBranches,
    Result.Distinct, Json.Distinct, Json.DistinctMembers, Json.DistinctItems]⟩

theorem value_round_trip_branching :
    branching.Distinct ∧ ∃ m, branching.build = .ok m ∧
      ∃ b', ofJson m.toJson = .ok b' ∧ b'.build = .ok m ∧ alike m m = true := by
  refine ⟨distinct_branching, ?_⟩
  have built : branching.build.isOk = true := by decide +kernel
  cases h : branching.build with
  | error defect => simp [h, Except.isOk, Except.toBool] at built
  | ok m => exact ⟨m, rfl, value_round_trip distinct_branching h⟩

end Workflow.Draft.Machine
