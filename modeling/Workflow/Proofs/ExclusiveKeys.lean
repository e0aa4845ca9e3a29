import Workflow.Proofs.NormalRules
import Workflow.Proofs.SiteDrafts
import Workflow.Proofs.SiteForms

/-!
# Keys that exclude each other

No two of the keys that exclude each other are given in what is accepted: a state or a catcher says
one way for control to go, a state that waits says one delay, and a rule or a condition asks for
one thing. A null gives no way to go and no delay, as it is read like an absent key; but it counts
in a rule, where a key is a question whatever stands under it.

What a text says and then takes back is not looked at for this: the first definition of a state
that is defined again, and the first of two members of a rule with one key. In all other objects
with fields a repeated key is refused.

## Main definitions

* `AtMostOne`: a value other than null stands under at most one of some keys
* `Written.AsksOnce`: an object has exactly one key of a comparator or combination
* `Written.Nests`: a condition stands directly in a rule or in another condition
* `Site.Exclusive`: no two keys that exclude each other are given at a site

## Main results

* `Site.Drafted.exclusive`: no two such keys are given where a draft is made of what is read
* `Draft.Machine.exclusive_of_ofText`: nor in a text that is accepted
* `Draft.Machine.exclusive_keys_refuted`: but they may be written, to no effect
-/

namespace Workflow

open Json (get?)

/-! ### Rules and conditions -/

/-- The keys of rules and conditions that ask for something. -/
def askingKeys : List String := Comparator.all.map Comparator.key ++ ["And", "Or", "Not"]

namespace Written

/-- An object has exactly one of the keys that ask for something, whatever stands under it. -/
def AsksOnce : Written → Prop
  | object members _ => ∃ e, members.filter (fun m => m.1 ∈ askingKeys) = [e]
  | _ => False

/-- A condition stands directly in a rule, or in another condition. -/
inductive Nests : Written → Written → Prop
  | part {members : List (String × Written)} {fault fault' : Option Json.Fault} {key : String}
      {items : List Written} {item : Written} (combination : key ∈ ["And", "Or"])
      (found : (key, array items fault') ∈ members) (mem : item ∈ items) :
      Nests (object members fault) item
  | negated {members : List (String × Written)} {fault : Option Json.Fault} {item : Written}
      (found : ("Not", item) ∈ members) : Nests (object members fault) item

end Written

namespace Draft

/-- The members of an object ask for one condition, under a key and its value. -/
structure Asks (members : Members) (key : String) (value : Json) : Prop where
  found : get? key members = some value
  asking : key ∈ askingKeys
  only : ∀ k ∈ members.map Prod.fst, k ∈ askingKeys → k = key
  asked : ∃ subject d, Condition.ofAsked subject [(key, value)] = .ok d

/-- A key that is not one of a combination is the name of a comparator. -/
theorem askingKey_of_ofAsked {subject : Option Json} {key : String} {value : Json} {d : Condition}
    (hk : key ≠ "Variable") (h : Condition.ofAsked subject [(key, value)] = .ok d) :
    key ∈ askingKeys := by
  rw [askingKeys, List.mem_append]
  have asked := NormalForm.asked_of_ofAsked hk h
  -- what was made of the key tells which of the keys it was
  cases d with
  | comparison operator path expected =>
    obtain ⟨c, _, _, rfl, -⟩ := NormalForm.ofComparison_eq_ok.mp asked
    exact .inl (List.mem_map_of_mem (Comparator.mem_all c))
  | and parts => exact .inr (by simp [asked.1])
  | or parts => exact .inr (by simp [asked.1])
  | not part => exact .inr (by simp [asked.1])

theorem notMem_askingKeys : "Variable" ∉ askingKeys ∧ "Next" ∉ askingKeys := by decide

theorem asks_of_condition {members : Members} (hn : (members.map Prod.fst).Nodup) {d : Condition}
    (h : Condition.ofMembers members = .ok d) : ∃ key value, Asks members key value := by
  obtain ⟨key, value, keys, hk, found, asked⟩ := NormalForm.asked_of_ofMembers hn h
  refine ⟨key, value, found, askingKey_of_ofAsked hk asked, ?_, _, d, asked⟩
  intro k hm asking
  rcases List.mem_pair.mp (keys.known k hm) with rfl | same
  · exact absurd asking notMem_askingKeys.1
  · exact same

/-- The name of its state is taken out of a rule, and what is left is a condition. -/
theorem asks_of_rule {members : Members} (hd : (Json.object members).Distinct) {d : Rule}
    (h : Rule.ofMembers members = .ok d) : ∃ key value, Asks members key value := by
  obtain ⟨name, condition, hnext, hc, -⟩ := NormalForm.parts_of_ofMembers h
  have moved := NormalForm.perm_erase hnext
  obtain ⟨-, hn⟩ := List.nodup_cons.mp (NormalForm.distinct_perm moved hd).1
  obtain ⟨key, value, found, asking, only, asked⟩ := asks_of_condition hn hc
  have other : "Next" ≠ key := fun same => notMem_askingKeys.2 (same ▸ asking)
  refine ⟨key, value, ?_, asking, fun k hm hk => ?_, asked⟩
  · rw [NormalForm.get?_perm moved hd.1, get?, if_neg other]
    exact found
  · rcases List.mem_cons.mp ((moved.map Prod.fst).subset hm) with rfl | hm
    · exact absurd hk notMem_askingKeys.2
    · exact only k hm hk

/-- A combination that was read has a list of parts that were read. -/
theorem exists_parts_of_ofAsked {subject : Option Json} {key : String} (hk : key ∈ ["And", "Or"])
    {value : Json} {d : Condition} (h : Condition.ofAsked subject [(key, value)] = .ok d) :
    ∃ parts, Condition.ofParts key value = .ok parts := by
  rcases List.mem_pair.mp hk with rfl | rfl
  · simp only [Condition.ofAsked, String.reduceEq, ↓reduceIte, Asked.ofKey, bind_eq_ok] at h
    obtain ⟨-, -, parts, hp, -⟩ := h
    exact ⟨parts, hp⟩
  · simp only [Condition.ofAsked, String.reduceEq, ↓reduceIte, Asked.ofKey, bind_eq_ok] at h
    obtain ⟨-, -, parts, hp, -⟩ := h
    exact ⟨parts, hp⟩

/-- Every part of a combination is the object of a condition. -/
theorem exists_condition_of_mem {key : String} {index : ℕ} {items : List Json}
    {ds : List Condition} (h : Condition.ofItems key index items = .ok ds) {item : Json}
    (hm : item ∈ items) :
    ∃ members d, item = .object members ∧ Condition.ofMembers members = .ok d := by
  induction items generalizing index ds with
  | nil => cases hm
  | cons first items ih =>
    simp only [Condition.ofItems, bind_eq_ok, Except.ok.injEq] at h
    obtain ⟨d, hd, ds, hds, rfl⟩ := h
    rcases List.mem_cons.mp hm with rfl | hm
    · cases item with
      | object members => exact ⟨members, d, rfl, mapError_eq_ok.mp hd⟩
      | _ => cases hd
    · exact ih hds hm

namespace Asks

variable {members : Members} {key : String} {value : Json}

/-- Only one key asks for something, so it is the one under which something is found. -/
theorem eq_of_mem (h : Asks members key value) {k : String} (hk : k ∈ askingKeys) {v : Json}
    (hn : (members.map Prod.fst).Nodup) (hm : (k, v) ∈ members) : k = key ∧ v = value := by
  obtain rfl := h.only k (List.mem_map.mpr ⟨(k, v), hm, rfl⟩) hk
  have found := h.found
  rw [Json.get?_of_mem hn hm, Option.some.injEq] at found
  exact ⟨rfl, found⟩

/-- The parts of what is asked for are conditions. -/
theorem exists_condition_of_part (h : Asks members key value)
    (hn : (members.map Prod.fst).Nodup) {k : String} (hk : k ∈ ["And", "Or"]) {items : List Json}
    (hm : (k, .array items) ∈ members) {item : Json} (hi : item ∈ items) :
    ∃ inner d, item = .object inner ∧ Condition.ofMembers inner = .ok d := by
  have asking : k ∈ askingKeys := by
    rcases List.mem_pair.mp hk with rfl | rfl <;> decide
  -- no other key asks for something, so these are the parts that were read
  obtain ⟨rfl, rfl⟩ := h.eq_of_mem asking hn hm
  obtain ⟨subject, d, asked⟩ := h.asked
  obtain ⟨parts, hp⟩ := exists_parts_of_ofAsked hk asked
  exact exists_condition_of_mem hp hi

theorem exists_condition_of_negated (h : Asks members key value)
    (hn : (members.map Prod.fst).Nodup) {item : Json} (hm : ("Not", item) ∈ members) :
    ∃ inner d, item = .object inner ∧ Condition.ofMembers inner = .ok d := by
  obtain ⟨rfl, rfl⟩ := h.eq_of_mem (by decide) hn hm
  obtain ⟨subject, d, asked⟩ := h.asked
  simp only [Condition.ofAsked, String.reduceEq, ↓reduceIte, Asked.ofKey, bind_eq_ok] at asked
  obtain ⟨-, -, part, hp, -⟩ := asked
  cases item with
  | object inner => exact ⟨inner, part, rfl, mapError_eq_ok.mp hp⟩
  | _ => cases hp

end Asks

end Draft

namespace Json

theorem mem_writtenMembers {key : String} {w : Written} {members : Members} :
    (key, w) ∈ writtenMembers members ↔ ∃ value, (key, value) ∈ members ∧ value.written = w := by
  induction members with
  | nil => simp [writtenMembers]
  | cons m members ih =>
    obtain ⟨k, v⟩ := m
    simp only [writtenMembers, List.mem_cons, Prod.mk.injEq, ih]
    constructor
    · rintro (⟨rfl, rfl⟩ | ⟨value, hm, hw⟩)
      · exact ⟨v, .inl ⟨rfl, rfl⟩, rfl⟩
      · exact ⟨value, .inr hm, hw⟩
    · rintro ⟨value, ⟨rfl, rfl⟩ | hm, hw⟩
      · exact .inl ⟨rfl, hw.symm⟩
      · exact .inr ⟨value, hm, hw⟩

/-- A member that alone has a key with a property is what is left of the members. -/
theorem filter_eq_singleton {α : Type} {keys : List String} {key : String} {value : α}
    {members : List (String × α)} (hn : (members.map Prod.fst).Nodup) (hk : key ∈ keys)
    (found : get? key members = some value)
    (only : ∀ k ∈ members.map Prod.fst, k ∈ keys → k = key) :
    members.filter (fun m => m.1 ∈ keys) = [(key, value)] := by
  induction members with
  | nil => cases found
  | cons m members ih =>
    obtain ⟨k, v⟩ := m
    obtain ⟨fresh, hn⟩ := List.nodup_cons.mp hn
    obtain ⟨first, rest⟩ := List.forall_mem_cons.mp only
    by_cases same : k = key
    · subst same
      obtain rfl : v = value := by simpa [get?] using found
      -- another key that asks would be this one, which is not there again
      have none_left : members.filter (fun m => m.1 ∈ keys) = [] := by
        refine List.filter_eq_nil_iff.mpr fun m hm asking => fresh ?_
        have hkey : m.1 ∈ members.map Prod.fst := List.mem_map.mpr ⟨m, hm, rfl⟩
        rwa [rest m.1 hkey (by simpa using asking)] at hkey
      rw [List.filter_cons_of_pos (by simpa using hk), none_left]
    · rw [get?, if_neg same] at found
      rw [List.filter_cons_of_neg (by simpa using fun asking => same (first asking)),
        ih hn found rest]

end Json

namespace Written

/-- What is written asks for one condition. -/
def Asks (w : Written) : Prop :=
  ∃ members key value, w = (Json.object members).written ∧ (Json.object members).Distinct ∧
    Draft.Asks members key value

theorem Asks.asksOnce {w : Written} (h : w.Asks) : w.AsksOnce := by
  obtain ⟨members, key, value, rfl, distinct, found, asking, only, -⟩ := h
  have keys := Json.map_fst_writtenMembers members
  refine ⟨(key, value.written), Json.filter_eq_singleton ?_ asking ?_ ?_⟩
  · rw [keys]
    exact distinct.1
  · rw [Json.get?_writtenMembers, found, Option.map_some]
  · rw [keys]
    exact only

/-- The object of a condition asks for it. -/
theorem asks_of_condition {members : Members} (hd : (Json.object members).Distinct)
    {d : Draft.Condition} (h : Draft.Condition.ofMembers members = .ok d) :
    (Json.object members).written.Asks := by
  obtain ⟨key, value, asks⟩ := Draft.asks_of_condition hd.1 h
  exact ⟨members, key, value, rfl, hd, asks⟩

/-- **The conditions directly in what asks for one condition ask for one each.** -/
theorem Nests.asks {w w' : Written} (h : w.Nests w') (hw : w.Asks) : w'.Asks := by
  obtain ⟨members, key, value, he, distinct, asks⟩ := hw
  cases h with
  | @part written fault fault' k items item combination found mem =>
    -- what is found in the object was written for a value of its own
    obtain ⟨rfl, rfl⟩ := Written.object.inj he
    obtain ⟨list, hm, hl⟩ := Json.mem_writtenMembers.mp found
    cases list with
    | array values =>
      obtain ⟨rfl, -⟩ := Written.array.inj hl
      rw [Json.writtenItems_eq_map] at mem
      obtain ⟨part, hp, rfl⟩ := List.mem_map.mp mem
      obtain ⟨inner, d, rfl, hd⟩ := asks.exists_condition_of_part distinct.1 combination hm hp
      have below := Json.distinctMembers_iff.mp distinct.2 _ hm
      exact asks_of_condition (Json.distinctItems_iff.mp below _ hp) hd
    | _ => cases hl
  | @negated written fault item found =>
    obtain ⟨rfl, rfl⟩ := Written.object.inj he
    obtain ⟨part, hm, rfl⟩ := Json.mem_writtenMembers.mp found
    obtain ⟨inner, d, rfl, hd⟩ := asks.exists_condition_of_negated distinct.1 hm
    exact asks_of_condition (Json.distinctMembers_iff.mp distinct.2 _ hm) hd

theorem asks_of_nested {w w' : Written} (h : Relation.ReflTransGen Nests w w') (hw : w.Asks) :
    w'.Asks := by
  induction h with
  | refl => exact hw
  | tail _ step ih => exact step.asks ih

end Written

namespace Document

/-! ### Keys of which one may be given -/

/-- The keys that say where control goes. -/
def exitKeys : List String := ["Next", "End"]

/-- The keys that say how long to wait. -/
def delayKeys : List String := ["Seconds", "SecondsPath", "Timestamp", "TimestampPath"]

/-- A value that says nothing where a field may be null. -/
def isNull : Written → Bool
  | .null => true
  | _ => false

/-- A value other than null stands under at most one of some keys. -/
def AtMostOne (keys : List String) (entries : List (String × Written)) : Prop :=
  (entries.filter fun e => keys.contains e.1 && !isNull e.2).length ≤ 1

/-- Nothing is said under a key that is absent or null. -/
def Silent (o : Option Written) : Prop := ∀ w ∈ o, isNull w = true

theorem Maybe.silent {α : Type} {read : Written → Reading α} {o : Option Written}
    (h : Maybe read o none) : Silent o := by
  rintro w rfl
  cases w with
  | null => rfl
  | _ =>
    obtain ⟨_, -, he⟩ := h
    cases he

section

variable {entries : List (String × Written)} (hn : (entries.map Prod.fst).Nodup)

include hn

/-- At most one of some keys is given when nothing is said under the others. -/
theorem atMostOne_of_silent {keys : List String} (key : String)
    (h : ∀ k ∈ keys, k ≠ key → Silent (get? k entries)) : AtMostOne keys entries := by
  unfold AtMostOne
  generalize hg : entries.filter (fun e => keys.contains e.1 && !isNull e.2) = given
  -- the keys of what is given are distinct and all the same, so there is at most one
  have once : (given.map Prod.fst).Nodup := by
    rw [← hg]
    exact hn.sublist (List.filter_sublist.map Prod.fst)
  have same : given.map Prod.fst ⊆ [key] := by
    intro k hk
    obtain ⟨⟨_, w⟩, he, rfl⟩ := List.mem_map.mp hk
    rw [← hg, List.mem_filter] at he
    obtain ⟨hm, hp⟩ := he
    simp only [Bool.and_eq_true, List.contains_iff_mem, Bool.not_eq_true'] at hp
    by_contra other
    have silent := h _ hp.1 (by simpa using other) w (Json.get?_of_mem hn hm)
    rw [hp.2] at silent
    cases silent
  simpa using (once.subperm same).length_le

/-- A way for control to go of which a transition is made is given by one key. -/
theorem ExitRead.atMostOne {e : Exit} (read : ExitRead entries e) {t : Option Transition}
    (h : e.draft = .ok t) : AtMostOne exitKeys entries := by
  obtain ⟨next, finish⟩ := read
  obtain ⟨name, value⟩ := e
  cases name with
  | none =>
    refine atMostOne_of_silent hn "End" fun k hk other => ?_
    obtain rfl : k = "Next" := (List.mem_pair.mp hk).resolve_right other
    exact next.silent
  | some name =>
    -- two keys would have been refused, whatever is said under the second one
    cases value with
    | some value => cases h
    | none =>
      refine atMostOne_of_silent hn "Next" fun k hk other => ?_
      obtain rfl : k = "End" := (List.mem_pair.mp hk).resolve_left other
      exact finish.silent

end

/-- When at most one of some named values is there, all are missing but that of one name. -/
theorem exists_only_name {α : Type} {named : List (String × Option α)}
    (h : ((named.map Prod.snd).filterMap id).length ≤ 1) :
    ∃ key, ∀ e ∈ named, e.1 ≠ key → e.2 = none := by
  induction named with
  | nil => exact ⟨"", by simp⟩
  | cons first named ih =>
    obtain ⟨name, value⟩ := first
    cases value with
    | none =>
      obtain ⟨key, rest⟩ := ih h
      exact ⟨key, List.forall_mem_cons.mpr ⟨fun _ => rfl, rest⟩⟩
    | some a =>
      -- this is the one value, so the others are missing whatever their names
      have others : (named.map Prod.snd).filterMap id = [] :=
        List.length_eq_zero_iff.mp (Nat.le_zero.mp (Nat.le_of_succ_le_succ h))
      refine ⟨name, List.forall_mem_cons.mpr ⟨fun other => absurd rfl other, fun e he _ => ?_⟩⟩
      exact List.filterMap_eq_nil_iff.mp others e.2 (List.mem_map_of_mem he)

/-- An instant is missing only when no timestamp is given. -/
theorem timestamp_eq_none {o : Option String} (h : draftTimestamp o = .ok none) : o = none := by
  cases o with
  | none => rfl
  | some text =>
    rw [draftTimestamp] at h
    split at h <;> cases h

/-- A wait of which a delay is made says at most one. -/
theorem Wait.exists_only_delay {w : Wait} {delay : Option Delay} (h : w.delay = .ok delay) :
    ∃ key, ("Seconds" ≠ key → w.seconds = none) ∧ ("SecondsPath" ≠ key → w.secondsPath = none) ∧
      ("Timestamp" ≠ key → w.timestamp = none) ∧
      ("TimestampPath" ≠ key → w.timestampPath = none) := by
  obtain ⟨instant, hi, h⟩ := bind_eq_ok.mp h
  let named : List (String × Option Delay) :=
    [("Seconds", w.seconds.map .seconds), ("SecondsPath", w.secondsPath.map .secondsPath),
      ("Timestamp", instant.map .timestamp), ("TimestampPath", w.timestampPath.map .timestampPath)]
  have short : ((named.map Prod.snd).filterMap id).length ≤ 1 := by
    dsimp only at h
    split at h
    · next none_given => exact none_given ▸ Nat.zero_le 1
    · next one_given => exact one_given ▸ Nat.le_refl 1
    · cases h
  obtain ⟨key, only⟩ := exists_only_name short
  obtain ⟨seconds, secondsPath, timestamp, timestampPath, -⟩ :
      ("Seconds" ≠ key → w.seconds.map Delay.seconds = none) ∧
      ("SecondsPath" ≠ key → w.secondsPath.map Delay.secondsPath = none) ∧
      ("Timestamp" ≠ key → instant.map Delay.timestamp = none) ∧
      ("TimestampPath" ≠ key → w.timestampPath.map Delay.timestampPath = none) ∧ True := by
    simpa [named] using only
  refine ⟨key, fun hk => Option.map_eq_none_iff.mp (seconds hk),
    fun hk => Option.map_eq_none_iff.mp (secondsPath hk), fun hk => ?_,
    fun hk => Option.map_eq_none_iff.mp (timestampPath hk)⟩
  -- the timestamp was read before the delays were counted, and would have given an instant
  obtain rfl := Option.map_eq_none_iff.mp (timestamp hk)
  exact timestamp_eq_none hi

/-- A delay is given by one key. -/
theorem DelaysRead.atMostOne {entries : List (String × Written)}
    (hn : (entries.map Prod.fst).Nodup) {w : Wait} (read : DelaysRead entries w)
    {delay : Option Delay} (h : w.delay = .ok delay) : AtMostOne delayKeys entries := by
  obtain ⟨key, seconds, secondsPath, timestamp, timestampPath⟩ := w.exists_only_delay h
  refine atMostOne_of_silent hn key fun k hk other => ?_
  simp only [delayKeys, List.mem_cons, List.not_mem_nil, or_false] at hk
  rcases hk with rfl | rfl | rfl | rfl
  · exact (seconds other ▸ read.seconds).silent
  · exact (secondsPath other ▸ read.secondsPath).silent
  · exact (timestamp other ▸ read.timestamp).silent
  · exact (timestampPath other ▸ read.timestampPath).silent

/-! ### Sites -/

namespace Site

/-- No two keys that exclude each other are given at a site, nor in the conditions inside it. -/
def Exclusive : Site → Prop
  | ⟨.state nested, w⟩ =>
    AtMostOne exitKeys (stateEntries nested w) ∧ AtMostOne delayKeys (stateEntries nested w)
  | ⟨.catcher, w⟩ => AtMostOne exitKeys (w.entries catcherShape.names)
  | ⟨.rule, w⟩ => ∀ condition, Relation.ReflTransGen Written.Nests w condition → condition.AsksOnce
  | _ => True

/-- No key is repeated where fields are read. -/
theorem Says.nodup {site : Site} (sound : site.written.Sound) {x : Content} (h : site.Says x)
    (hp : site.part ≠ .rule) : (site.entries.map Prod.fst).Nodup := by
  cases h with
  | machine closed h =>
    exact (ofMembers_machineShape.mp ((Machine.ofWritten_eq_ok closed sound).mp h).2).1.nodup
  | state h =>
    obtain ⟨below, kind, -, readAs⟩ := State.exists_readAs h
    exact readAs.nodup
  | branch h =>
    exact (ofMembers_branchShape.mp ((branch_read_eq_ok sound).mp h).2).1.nodup
  | retrier h =>
    have read := ((Shape.read_eq_ok retrierShape_regular sound).mp h).2
    exact (ofMembers_retrierShape.mp read).1.nodup
  | catcher h =>
    have read := ((Shape.read_eq_ok catcherShape_regular sound).mp h).2
    exact (ofMembers_catcherShape.mp read).1.nodup
  | rule h => exact absurd rfl hp

/-- **Where a draft is made of what is read, no two keys that exclude each other are given.** -/
theorem Drafted.exclusive {site : Site} (h : site.Drafted) : site.Exclusive := by
  obtain ⟨sound, distinct, x, hx, drafted⟩ := h
  cases hx with
  | machine closed h => trivial
  | state h =>
    obtain ⟨below, kind, -, readAs⟩ := State.exists_readAs h
    obtain ⟨d, hd⟩ := drafted
    obtain ⟨-, -, -, ⟨t, exit⟩, ⟨delay, wait⟩⟩ := State.partsDrafted hd
    exact ⟨readAs.parts.exit.atMostOne readAs.nodup exit,
      readAs.parts.delays.atMostOne readAs.nodup wait⟩
  | branch h => trivial
  | retrier h => trivial
  | catcher h =>
    obtain ⟨keys, fields⟩ :=
      ofMembers_catcherShape.mp ((Shape.read_eq_ok catcherShape_regular sound).mp h).2
    obtain ⟨index, d, hd⟩ := drafted
    simp only [Catcher.draft, bind_eq_ok, mapError_eq_ok] at hd
    obtain ⟨t, exit, -⟩ := hd
    exact fields.exit.atMostOne keys.nodup exit
  | rule h =>
    intro condition hc
    obtain ⟨d, hd⟩ := drafted
    have said := toJson_of_rule h
    have once := Written.distinct_of_toJson said
    obtain ⟨key, value, asks⟩ := Draft.asks_of_rule once hd
    -- no key is repeated here, so the rule is written as the value that it says
    have whole : Written.Asks _ := ⟨_, key, value, distinct.eq_written said, once, asks⟩
    exact (Written.asks_of_nested hc whole).asksOnce

end Site

end Document

namespace Draft.Machine

open Document (Site AtMostOne exitKeys delayKeys stateEntries)

/-- **Keys that exclude each other are not given together in an accepted text.** Where a text has
fields, no key is repeated, whatever stands under it; and in the value of the text, every state and
catcher says at most one way for control to go, every state at most one delay, and every rule and
condition asks for exactly one thing. -/
theorem exclusive_of_ofText {text : String} {b : Machine} (h : ofText text = .ok b) :
    (∀ site, (Site.ofText text).Has site → site.part ≠ .rule →
      (site.entries.map Prod.fst).Nodup) ∧
    ∃ value, Json.parse text = .ok value ∧
      ∀ site, (Site.ofJson value).Has site → site.Exclusive := by
  constructor
  · intro site hs hp
    obtain ⟨sound, x, hx⟩ := Site.says_of_ofText h
    obtain ⟨sound, y, hy⟩ := hs.says sound hx
    exact hy.nodup sound hp
  · obtain ⟨value, said, drafted⟩ := Site.exists_drafted_of_ofText h
    exact ⟨value, said, fun site hs => (hs.drafted drafted).exclusive⟩

/-- A state that is defined again, in which control would go two ways. -/
def twoWays : Json :=
  .object [("Type", .string "Pass"), ("Next", .string "A"), ("End", .bool true)]

/-- A rule that asks twice with one comparator. -/
def askedTwice : Json :=
  .object [
    ("Variable", .string "$.x"),
    ("NumericEquals", .number (.whole (.ofUInt64 1))),
    ("NumericEquals", .number (.whole (.ofUInt64 2))),
    ("Next", .string "B")]

/-- A state with two ways for control to go and two delays, one of them null. -/
def halfNull : Json :=
  .object [
    ("Type", .string "Wait"),
    ("Seconds", .number (.whole (.ofUInt64 1))),
    ("SecondsPath", .null),
    ("Next", .null),
    ("End", .bool true)]

/-- A state that chooses by the rule. -/
def choosing : Json :=
  .object [("Type", .string "Choice"), ("Choices", .array [askedTwice])]

/-- A definition that has keys that exclude each other, none of which counts. -/
def lenient : Json :=
  .object [
    ("StartAt", .string "A"),
    ("States", .object [("A", twoWays), ("A", choosing), ("B", halfNull)])]

theorem isSome_lenient : (ofText lenient.compact).toOption.isSome = true := by
  rw [ofText_compact (by decide)]
  decide +kernel

/-- In the value of the lenient definition, only the keys are left that count. -/
theorem exclusive_of_ofText_lenient :
    ∃ b, ofText lenient.compact = .ok b ∧
      (∀ site, (Site.ofText lenient.compact).Has site → site.part ≠ .rule →
        (site.entries.map Prod.fst).Nodup) ∧
      ∃ value, Json.parse lenient.compact = .ok value ∧
        ∀ site, (Site.ofJson value).Has site → site.Exclusive := by
  obtain ⟨b, hb⟩ := exists_ok_of_isSome isSome_lenient
  exact ⟨b, hb, exclusive_of_ofText hb⟩

/-- The members under some keys, whatever stands under them. -/
def writtenUnder (keys : List String) (entries : List (String × Written)) :
    List (String × Written) :=
  entries.filter fun e => keys.contains e.1

/-- Keys that exclude each other may both be written in a text that is accepted: when one of them
is null, in a state that is defined again, and in a rule that repeats a key. -/
theorem exclusive_keys_refuted :
    (¬∀ text b, ofText text = .ok b → ∀ nested w, (Site.ofText text).Has ⟨.state nested, w⟩ →
      (writtenUnder exitKeys (stateEntries nested w)).length ≤ 1) ∧
    (¬∀ text b, ofText text = .ok b → ∀ nested w, (Site.ofText text).Has ⟨.state nested, w⟩ →
      (writtenUnder delayKeys (stateEntries nested w)).length ≤ 1) ∧
    (¬∀ text b, ofText text = .ok b → ∀ nested w, (Site.ofText text).Has ⟨.state nested, w⟩ →
      AtMostOne exitKeys (stateEntries nested w)) ∧
    ¬∀ text b, ofText text = .ok b → ∀ w, (Site.ofText text).Has ⟨.rule, w⟩ → w.AsksOnce := by
  obtain ⟨b, hb⟩ := exists_ok_of_isSome isSome_lenient
  have same : Site.ofText lenient.compact = Site.ofJson lenient := Site.ofText_compact (by decide)
  have state (name : String) (value : Json)
      (hm : (name, value.written) ∈ Json.writtenMembers
        [("A", twoWays), ("A", choosing), ("B", halfNull)]) :
      (Site.ofText lenient.compact).Has ⟨.state false, value.written⟩ := by
    rw [same]
    exact .single (.state (by decide) (List.mem_of_getElem? (i := 1) rfl) hm)
  have replaced := state "A" twoWays List.mem_cons_self
  have waiting := state "B" halfNull (List.mem_of_getElem? (i := 2) rfl)
  have rule : (Site.ofText lenient.compact).Has ⟨.rule, askedTwice.written⟩ :=
    (state "A" choosing (List.mem_of_getElem? (i := 1) rfl)).tail
      (.listed (by decide) (List.mem_of_getElem? (i := 1) rfl) List.mem_cons_self)
  refine ⟨fun all => ?_, fun all => ?_, fun all => ?_, fun all => ?_⟩
  · exact absurd (all _ b hb false _ waiting) (by decide)
  · exact absurd (all _ b hb false _ waiting) (by decide)
  · exact absurd (all _ b hb false _ replaced) (by unfold AtMostOne; decide)
  · obtain ⟨e, he⟩ := all _ b hb _ rule
    have counted := (congrArg List.length he).trans List.length_singleton
    exact absurd counted (by decide)

end Draft.Machine

end Workflow
