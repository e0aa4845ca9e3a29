import Workflow.Proofs.FieldValues
import Workflow.Proofs.SoundValues
import Workflow.Proofs.TokenText

/-!
# How deep a text may nest

The containers that are open while a text is read are limited in number, while a value that is
written may have any number of them around one another. So the text of a value is read back up to
the limit, and beyond it the first container that is too deep is the fault of the text.

## Main definitions

* `Json.nesting`: the number of containers around one another
* `Written.Ready`: a place where a value may begin

## Main results

* `Written.read_valueTokens`: a value within the limit is read
* `Written.read_valueTokens_tooDeep`: a value beyond the limit is a fault
* `Written.ofText_layout`, `Written.ofText_layout_tooDeep`: the same of texts
* `Document.Machine.ofText_layout`: the text of a value says what is read from the value
* `Json.parse_layout`: the text of a value is read back exactly when it is within the limit
-/

namespace Workflow

namespace Json

mutual

/-- The number of containers around one another. -/
def nesting : Json → ℕ
  | null | bool _ | number _ | string _ => 0
  | array items => itemsNesting items + 1
  | object members => membersNesting members + 1

/-- The greatest nesting of items. -/
def itemsNesting : List Json → ℕ
  | [] => 0
  | item :: items => max (nesting item) (itemsNesting items)

/-- The greatest nesting of the values of members. -/
def membersNesting : List (String × Json) → ℕ
  | [] => 0
  | (_, value) :: members => max (nesting value) (membersNesting members)

end

/-! ### Written values are sound -/

mutual

theorem sound_written (value : Json) : value.written.Sound := by
  cases value with
  | null => exact Written.sound_null
  | bool value => exact Written.sound_bool value
  | number value => exact Written.sound_number value
  | string value => exact Written.sound_string value
  | array items => exact Written.sound_array.mpr ⟨sound_writtenItems items, rfl⟩
  | object members => exact Written.sound_object.mpr ⟨sound_writtenMembers members, rfl⟩

theorem sound_writtenItems (items : List Json) : ∀ item ∈ writtenItems items, item.Sound := by
  cases items with
  | nil => simp [writtenItems]
  | cons item items =>
    exact List.forall_mem_cons.mpr ⟨sound_written item, sound_writtenItems items⟩

theorem sound_writtenMembers (members : List (String × Json)) :
    ∀ member ∈ writtenMembers members, member.2.Sound := by
  cases members with
  | nil => simp [writtenMembers]
  | cons member members =>
    obtain ⟨key, value⟩ := member
    exact List.forall_mem_cons.mpr ⟨sound_written value, sound_writtenMembers members⟩

end

end Json

namespace Written

open Json (Fault Token valueTokens itemsTokens membersTokens)

/-! ### The first fault -/

/-- An open container holds sound parts. -/
def Frame.Sound : Frame → Prop
  | .array items => ∀ item ∈ items, item.Sound
  | .object members _ => ∀ member ∈ members, member.2.Sound

theorem toItems_snoc_error {items : List Written} {value : Written} {fault : Fault}
    (hs : ∀ item ∈ items, item.Sound) (hv : value.toJson = .error fault) :
    toItems (items ++ [value]) = .error fault := by
  induction items with
  | nil => simp [toItems, hv]
  | cons item items ih =>
    obtain ⟨⟨_, hi⟩, hs⟩ := List.forall_mem_cons.mp hs
    simp [toItems, hi, ih hs]

theorem toMembers_snoc_error {members : List (String × Written)} {value : Written}
    {fault : Fault} (key : String) (hs : ∀ member ∈ members, member.2.Sound)
    (hv : value.toJson = .error fault) : toMembers (members ++ [(key, value)]) = .error fault := by
  induction members with
  | nil => simp [toMembers, hv]
  | cons member members ih =>
    obtain ⟨⟨_, hm⟩, hs⟩ := List.forall_mem_cons.mp hs
    simp [toMembers, hm, ih hs]

/-- Where the text goes wrong is the first fault of all that is open around it. -/
theorem toJson_abandon {stack : List Frame} {value : Written} {fault : Fault}
    (hv : value.toJson = .error fault) (hs : ∀ frame ∈ stack, frame.Sound) :
    (abandon fault value stack).toJson = .error fault := by
  -- what a frame holds is sound, so the fault inside is the first one of every frame around it
  induction stack generalizing value with
  | nil => exact hv
  | cons frame stack ih =>
    obtain ⟨hf, outer⟩ := List.forall_mem_cons.mp hs
    cases frame with
    | array items =>
      have first := toItems_snoc_error (fun item hi => hf item (List.mem_reverse.mp hi)) hv
      refine ih ?_ outer
      rw [List.reverse_cons, toJson, first]
      rfl
    | object members key =>
      have first :=
        toMembers_snoc_error key (fun member hm => hf member (List.mem_reverse.mp hm)) hv
      refine ih ?_ outer
      rw [List.reverse_cons, toJson, first]
      rfl

/-! ### Where a value may begin -/

/-- A value may begin at a place, and will be delivered to the frames. -/
inductive Ready : Place → List Frame → List Frame → Prop where
  | value (stack : List Frame) : Ready .value stack stack
  | arrayStart (stack : List Frame) : Ready .arrayStart stack (.array [] :: stack)

section Ready

variable {place : Place} {stack frames : List Frame}

theorem Ready.advance (h : Ready place stack frames) {token : Token} (ht : token ≠ .closeArray) :
    advance stack place token = begin frames token := by
  cases h with
  | value => rfl
  | arrayStart => cases token <;> first | rfl | contradiction

theorem Ready.read_ok (h : Ready place stack frames) {token : Token} (ht : token ≠ .closeArray)
    {next : Place × List Frame} (hb : begin frames token = .ok next) (tokens : List Token) :
    read place stack (token :: tokens) = read next.1 next.2 tokens := by
  have step := (h.advance ht).trans hb
  cases h with
  | value => simp only [read, step]
  | arrayStart => simp only [read, step]

theorem Ready.read_error (h : Ready place stack frames) (hs : ∀ frame ∈ frames, frame.Sound)
    {token : Token} (ht : token ≠ .closeArray) {fault : Fault}
    (hb : begin frames token = .error fault) (tokens : List Token) :
    ∃ written, read place stack (token :: tokens) = (written, []) ∧
      written.toJson = .error fault := by
  have step := (h.advance ht).trans hb
  cases h with
  | value =>
    refine ⟨abandon fault (Place.value.broken fault) stack, ?_, toJson_abandon rfl hs⟩
    simp only [read, step]
  | arrayStart =>
    refine ⟨abandon fault (Place.arrayStart.broken fault) stack, ?_, toJson_abandon rfl ?_⟩
    · simp only [read, step]
    · exact (List.forall_mem_cons.mp hs).2

theorem begin_openArray (h : frames.length < maxDepth) :
    begin frames .openArray = .ok (.arrayStart, frames) := if_pos h

theorem begin_openObject (h : frames.length < maxDepth) :
    begin frames .openObject = .ok (.objectStart, frames) := if_pos h

end Ready

/-! ### Within the limit -/

mutual

/-- **A value that is within the limit where it begins is read and delivered.** -/
theorem read_valueTokens {place : Place} {stack frames : List Frame}
    (hp : Ready place stack frames) (value : Json)
    (hn : value.nesting + frames.length ≤ maxDepth) (tokens : List Token) :
    read place stack (valueTokens value ++ tokens) =
      read (deliver value.written frames).1 (deliver value.written frames).2 tokens := by
  cases value with
  | null => exact hp.read_ok (by simp) rfl tokens
  | bool value => exact hp.read_ok (by simp) rfl tokens
  | number value => exact hp.read_ok (by simp) rfl tokens
  | string value => exact hp.read_ok (by simp) rfl tokens
  | array items =>
    rw [Json.nesting] at hn
    have opened := @begin_openArray frames (by omega)
    cases items with
    | nil => exact hp.read_ok (by simp) opened (.closeArray :: tokens)
    | cons item items =>
      rw [Json.itemsNesting] at hn
      -- the first item stands where the array could end, the others behind what is held
      have first := read_valueTokens (.arrayStart frames) item
        (by rw [List.length_cons]; omega) (itemsTokens items ++ .closeArray :: tokens)
      have others := read_itemsTokens frames [item.written] items (by omega) tokens
      rw [valueTokens, List.cons_append, hp.read_ok (by simp) opened]
      simp only [List.append_assoc, List.singleton_append]
      exact first.trans others
  | object members =>
    rw [Json.nesting] at hn
    have opened := @begin_openObject frames (by omega)
    cases members with
    | nil => exact hp.read_ok (by simp) opened (.closeObject :: tokens)
    | cons member members =>
      obtain ⟨key, value⟩ := member
      rw [Json.membersNesting] at hn
      have first := read_valueTokens (.value (.object [] key :: frames)) value
        (by rw [List.length_cons]; omega) (membersTokens members ++ .closeObject :: tokens)
      have others := read_membersTokens frames [(key, value.written)] members (by omega) tokens
      rw [valueTokens, List.cons_append, hp.read_ok (by simp) opened]
      simp only [List.append_assoc, List.cons_append]
      exact first.trans others

theorem read_itemsTokens (frames : List Frame) (held : List Written) (items : List Json)
    (hn : Json.itemsNesting items + 1 + frames.length ≤ maxDepth) (tokens : List Token) :
    read (.afterItem held) frames (itemsTokens items ++ .closeArray :: tokens) =
      read (deliver (.array (held.reverse ++ Json.writtenItems items) none) frames).1
        (deliver (.array (held.reverse ++ Json.writtenItems items) none) frames).2 tokens := by
  cases items with
  | nil =>
    rw [Json.writtenItems, List.append_nil]
    rfl
  | cons item items =>
    rw [Json.itemsNesting] at hn
    have first := read_valueTokens (.value (.array held :: frames)) item
      (by rw [List.length_cons]; omega) (itemsTokens items ++ .closeArray :: tokens)
    have others := read_itemsTokens frames (item.written :: held) items (by omega) tokens
    -- the items that are held are in reverse
    rw [List.reverse_cons, List.append_assoc, List.singleton_append] at others
    rw [itemsTokens, List.cons_append, List.append_assoc]
    exact first.trans others

theorem read_membersTokens (frames : List Frame) (held : List (String × Written))
    (members : List (String × Json))
    (hn : Json.membersNesting members + 1 + frames.length ≤ maxDepth) (tokens : List Token) :
    read (.afterMember held) frames (membersTokens members ++ .closeObject :: tokens) =
      read (deliver (.object (held.reverse ++ Json.writtenMembers members) none) frames).1
        (deliver (.object (held.reverse ++ Json.writtenMembers members) none) frames).2
        tokens := by
  cases members with
  | nil =>
    rw [Json.writtenMembers, List.append_nil]
    rfl
  | cons member members =>
    obtain ⟨key, value⟩ := member
    rw [Json.membersNesting] at hn
    have first := read_valueTokens (.value (.object held key :: frames)) value
      (by rw [List.length_cons]; omega) (membersTokens members ++ .closeObject :: tokens)
    have others :=
      read_membersTokens frames ((key, value.written) :: held) members (by omega) tokens
    rw [List.reverse_cons, List.append_assoc, List.singleton_append] at others
    rw [membersTokens]
    simp only [List.cons_append, List.append_assoc]
    exact first.trans others

end

/-! ### Beyond the limit -/

mutual

/-- **A value that goes beyond the limit where it begins is a fault.** -/
theorem read_valueTokens_tooDeep {place : Place} {stack frames : List Frame}
    (hp : Ready place stack frames) (hs : ∀ frame ∈ frames, frame.Sound)
    (hl : frames.length ≤ maxDepth) (value : Json)
    (hn : maxDepth < value.nesting + frames.length) (tokens : List Token) :
    ∃ written, read place stack (valueTokens value ++ tokens) = (written, []) ∧
      written.toJson = .error .tooDeep := by
  cases value with
  | array items =>
    rw [Json.nesting] at hn
    -- the array itself is too deep, or one of its items is
    by_cases full : frames.length = maxDepth
    · have refused : begin frames .openArray = .error .tooDeep := if_neg (by omega)
      cases items with
      | nil => exact hp.read_error hs (by simp) refused (.closeArray :: tokens)
      | cons item items => exact hp.read_error hs (by simp) refused _
    have opened := @begin_openArray frames (by omega)
    cases items with
    | nil =>
      rw [Json.itemsNesting] at hn
      omega
    | cons item items =>
      rw [Json.itemsNesting] at hn
      rw [valueTokens, List.cons_append, hp.read_ok (by simp) opened]
      simp only [List.append_assoc, List.singleton_append]
      have sound : ∀ frame ∈ Frame.array [] :: frames, frame.Sound :=
        List.forall_mem_cons.mpr ⟨by simp [Frame.Sound], hs⟩
      by_cases fits : item.nesting + (frames.length + 1) ≤ maxDepth
      · have first := read_valueTokens (.arrayStart frames) item fits
          (itemsTokens items ++ .closeArray :: tokens)
        rw [first]
        exact read_itemsTokens_tooDeep frames hs (by omega) [item.written]
          (by simpa using item.sound_written) items (by omega) _
      · exact read_valueTokens_tooDeep (.arrayStart frames) sound
          (by rw [List.length_cons]; omega) item (by rw [List.length_cons]; omega) _
  | object members =>
    rw [Json.nesting] at hn
    by_cases full : frames.length = maxDepth
    · have refused : begin frames .openObject = .error .tooDeep := if_neg (by omega)
      cases members with
      | nil => exact hp.read_error hs (by simp) refused (.closeObject :: tokens)
      | cons member members => exact hp.read_error hs (by simp) refused _
    have opened := @begin_openObject frames (by omega)
    cases members with
    | nil =>
      rw [Json.membersNesting] at hn
      omega
    | cons member members =>
      obtain ⟨key, value⟩ := member
      rw [Json.membersNesting] at hn
      rw [valueTokens, List.cons_append, hp.read_ok (by simp) opened]
      simp only [List.append_assoc, List.cons_append]
      have sound : ∀ frame ∈ Frame.object [] key :: frames, frame.Sound :=
        List.forall_mem_cons.mpr ⟨by simp [Frame.Sound], hs⟩
      by_cases fits : value.nesting + (frames.length + 1) ≤ maxDepth
      · have first := read_valueTokens (.value (.object [] key :: frames)) value fits
          (membersTokens members ++ .closeObject :: tokens)
        have rest := read_membersTokens_tooDeep frames hs (by omega) [(key, value.written)]
          (by simpa using value.sound_written) members (by omega) (.closeObject :: tokens)
        obtain ⟨written, hr, hw⟩ := rest
        exact ⟨written, first.trans hr, hw⟩
      · exact read_valueTokens_tooDeep (.value (.object [] key :: frames)) sound
          (by rw [List.length_cons]; omega) value (by rw [List.length_cons]; omega) _
  | _ =>
    rw [Json.nesting] at hn
    omega

theorem read_itemsTokens_tooDeep (frames : List Frame) (hs : ∀ frame ∈ frames, frame.Sound)
    (hl : frames.length < maxDepth) (held : List Written) (hh : ∀ item ∈ held, item.Sound)
    (items : List Json) (hn : maxDepth < Json.itemsNesting items + 1 + frames.length)
    (tokens : List Token) :
    ∃ written, read (.afterItem held) frames (itemsTokens items ++ tokens) = (written, []) ∧
      written.toJson = .error .tooDeep := by
  cases items with
  | nil =>
    rw [Json.itemsNesting] at hn
    omega
  | cons item items =>
    rw [Json.itemsNesting] at hn
    rw [itemsTokens, List.cons_append, List.append_assoc]
    -- an item that fits is held, and one behind it is too deep
    by_cases fits : item.nesting + (frames.length + 1) ≤ maxDepth
    · have first := read_valueTokens (.value (.array held :: frames)) item fits
        (itemsTokens items ++ tokens)
      have rest := read_itemsTokens_tooDeep frames hs hl (item.written :: held)
        (List.forall_mem_cons.mpr ⟨item.sound_written, hh⟩) items (by omega) tokens
      obtain ⟨written, hr, hw⟩ := rest
      exact ⟨written, first.trans hr, hw⟩
    · exact read_valueTokens_tooDeep (.value (.array held :: frames))
        (List.forall_mem_cons.mpr ⟨hh, hs⟩) hl item (by rw [List.length_cons]; omega) _

theorem read_membersTokens_tooDeep (frames : List Frame) (hs : ∀ frame ∈ frames, frame.Sound)
    (hl : frames.length < maxDepth) (held : List (String × Written))
    (hh : ∀ member ∈ held, member.2.Sound) (members : List (String × Json))
    (hn : maxDepth < Json.membersNesting members + 1 + frames.length) (tokens : List Token) :
    ∃ written, read (.afterMember held) frames (membersTokens members ++ tokens) =
      (written, []) ∧ written.toJson = .error .tooDeep := by
  cases members with
  | nil =>
    rw [Json.membersNesting] at hn
    omega
  | cons member members =>
    obtain ⟨key, value⟩ := member
    rw [Json.membersNesting] at hn
    rw [membersTokens]
    simp only [List.cons_append, List.append_assoc]
    by_cases fits : value.nesting + (frames.length + 1) ≤ maxDepth
    · have first := read_valueTokens (.value (.object held key :: frames)) value fits
        (membersTokens members ++ tokens)
      have rest := read_membersTokens_tooDeep frames hs hl ((key, value.written) :: held)
        (List.forall_mem_cons.mpr ⟨value.sound_written, hh⟩) members (by omega) tokens
      obtain ⟨written, hr, hw⟩ := rest
      exact ⟨written, first.trans hr, hw⟩
    · exact read_valueTokens_tooDeep (.value (.object held key :: frames))
        (List.forall_mem_cons.mpr ⟨hh, hs⟩) hl value (by rw [List.length_cons]; omega) _

end

/-! ### Texts -/

variable {layout : Json.Layout} {value : Json}

/-- The text of a value within the limit says the value. -/
theorem ofText_layout (h : layout.Spaced) (hn : value.nesting ≤ maxDepth) :
    ofText (String.ofList (value.text layout 0)) = (value.written, none) := by
  have all := read_valueTokens (.value []) value hn []
  rw [List.append_nil] at all
  rw [ofText, Json.tokens_layout h, all]
  rfl

/-- The text of a value beyond the limit is faulty. -/
theorem ofText_layout_tooDeep (h : layout.Spaced) (hn : maxDepth < value.nesting) :
    ∃ written, ofText (String.ofList (value.text layout 0)) = (written, none) ∧
      written.toJson = .error .tooDeep := by
  obtain ⟨written, hr, hw⟩ :=
    read_valueTokens_tooDeep (.value []) (by simp) (Nat.zero_le _) value hn []
  rw [List.append_nil] at hr
  exact ⟨written, by rw [ofText, Json.tokens_layout h, hr], hw⟩

end Written

/-- What is written in the text of a value is the value, also when it repeats keys. -/
theorem Json.written_compact {value : Json} (fits : value.nesting ≤ Written.maxDepth) :
    Written.ofText value.compact = (value.written, none) :=
  Written.ofText_layout Layout.spaced_compact fits

/-- The text of a value says what is read from the value as it is written. -/
theorem Document.Machine.ofText_layout {layout : Json.Layout} (h : layout.Spaced) {value : Json}
    (fits : value.nesting ≤ Written.maxDepth) :
    ofText (String.ofList (value.text layout 0)) = ofWritten endOfArray value.written := by
  rw [ofText, Written.ofText_layout h fits]
  cases hm : ofWritten endOfArray value.written with
  | error problem => simp only [hm, error_bind]
  | ok machine => simp only [hm, ok_bind]

/-- **The text of a value is read back as the value exactly when it is within the limit.** -/
theorem Json.parse_layout {layout : Layout} (h : layout.Spaced) {value : Json}
    (hd : value.Distinct) : parse (String.ofList (value.text layout 0)) =
      if value.nesting ≤ Written.maxDepth then .ok value else .error .tooDeep := by
  split
  · next fits =>
    rw [parse, Written.ofText_layout h fits]
    simp only [toJson_written hd, ok_bind]
  · next deep =>
    obtain ⟨written, hr, hw⟩ := Written.ofText_layout_tooDeep h (Nat.not_le.mp deep)
    rw [parse, hr]
    simp only [hw, error_bind]

end Workflow
