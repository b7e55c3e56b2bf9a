import DistributedMemory.Network.Transport

/-!
# Frames that are no message

The payload of a frame is decoded before the inner `try`, and parsed and handed
over inside it.  A payload that is no message is skipped; one that is not UTF-8
raises past both `except` clauses of the loop and ends the thread, and with it the
connection.
-/

namespace DistributedMemory.Network

open DistributedMemory.Library.Framing

/-- The message of a payload; `none` where decoding or parsing raises. -/
def parsePayload (json : JsonLibrary) (payload : Bytes) : Option Message :=
  (utf8Decode payload).bind fun text => (json.loads text).bind Message.ofDict

namespace Connection

/-- The payloads that `decodeBuffer` takes up on a buffer: those it decodes or tries
to. -/
def takenUp : Nat → Bytes → List Bytes
  | 0, _ => []
  | fuel + 1, buf =>
      match splitFrame buf with
      | none => []
      | some (payload, rest) =>
          payload :: if utf8Decode payload = none then [] else takenUp fuel rest

def takenUpBy (c : Connection) (event : Recv) : List Bytes :=
  if c.state = .reading then
    takenUp (c.buf ++ event.bytes).length (c.buf ++ event.bytes)
  else []

/-- The payloads that these rounds take up, one after the other. -/
def processed (json : JsonLibrary) : Connection → List Recv → List Bytes
  | _, [] => []
  | c, event :: events =>
      takenUpBy c event ++ processed json (receive json c event) events

section Loop

variable {json : JsonLibrary} {c : Connection}

theorem decodeBuffer_of_frame {payload rest : Bytes}
    (h : splitFrame c.buf = some (payload, rest)) (fuel : Nat) :
    c.decodeBuffer json (fuel + 1) =
      if utf8Decode payload = none then { c with state := .crashed }
      else decodeBuffer json fuel
        ⟨rest, c.received ++ (parsePayload json payload).toList, c.state⟩ := by
  rw [decodeBuffer_of_splitFrame h, parsePayload]
  cases utf8Decode payload with
  | none => rfl
  | some text =>
      simp only [Option.bind_some, reduceCtorEq, if_false]
      cases (json.loads text).bind Message.ofDict with
      | none => simp
      | some m => simp

theorem takenUp_of_none {buf : Bytes} (h : splitFrame buf = none) (fuel : Nat) :
    takenUp fuel buf = [] := by
  cases fuel with
  | zero => rfl
  | succ fuel => rw [takenUp, h]

variable (json) in
theorem decodeBuffer_utf8 {payloads : List Bytes}
    (hfits : ∀ payload ∈ payloads, payload.length < 2 ^ 32)
    (hutf8 : ∀ payload ∈ payloads, utf8Decode payload ≠ none) {rest : Bytes}
    (hbuf : c.buf = (payloads.map frame).flatten ++ rest) (fuel : Nat) :
    c.decodeBuffer json (payloads.length + fuel) =
        decodeBuffer json fuel
          ⟨rest, c.received ++ payloads.filterMap (parsePayload json), c.state⟩ ∧
      takenUp (payloads.length + fuel) c.buf = payloads ++ takenUp fuel rest := by
  induction payloads generalizing c with
  | nil =>
      simp only [List.map_nil, List.flatten_nil, List.nil_append] at hbuf
      simp [← hbuf]
  | cons payload payloads ih =>
      obtain ⟨hpayload, hpayloads⟩ := List.forall_mem_cons.mp hfits
      obtain ⟨hdecodes, hothers⟩ := List.forall_mem_cons.mp hutf8
      rw [List.map_cons, List.flatten_cons, List.append_assoc] at hbuf
      have hsplit := splitFrame_frame hpayload ((payloads.map frame).flatten ++ rest)
      rw [← hbuf] at hsplit
      have hfuel : (payload :: payloads).length + fuel =
          payloads.length + fuel + 1 := by
        rw [List.length_cons]
        omega
      obtain ⟨hloop, htaken⟩ := ih hpayloads hothers
        (c := ⟨(payloads.map frame).flatten ++ rest,
          c.received ++ (parsePayload json payload).toList, c.state⟩) rfl
      rw [hfuel, decodeBuffer_of_frame hsplit, if_neg hdecodes, hloop, takenUp,
        hsplit]
      constructor
      · congr 2
        rw [List.append_assoc, List.filterMap_cons]
        cases parsePayload json payload <;> rfl
      · simp only [if_neg hdecodes, htaken, List.cons_append]

variable (json) in
private theorem decodeBuffer_not_utf8 {payloads : List Bytes} {bad : Bytes}
    (hfits : ∀ payload ∈ payloads ++ [bad], payload.length < 2 ^ 32)
    (hutf8 : ∀ payload ∈ payloads, utf8Decode payload ≠ none)
    (hbad : utf8Decode bad = none) {rest : Bytes}
    (hbuf : c.buf = ((payloads ++ [bad]).map frame).flatten ++ rest) (fuel : Nat) :
    c.decodeBuffer json (payloads.length + (fuel + 1)) =
        ⟨frame bad ++ rest, c.received ++ payloads.filterMap (parsePayload json),
          .crashed⟩ ∧
      takenUp (payloads.length + (fuel + 1)) c.buf = payloads ++ [bad] := by
  obtain ⟨hpayloads, hlast⟩ := List.forall_mem_append.mp hfits
  have hsplit := splitFrame_frame (hlast bad (by simp)) rest
  rw [List.map_append, List.flatten_append, List.append_assoc] at hbuf
  simp only [List.map_singleton, List.flatten_singleton] at hbuf
  obtain ⟨hloop, htaken⟩ := decodeBuffer_utf8 json hpayloads hutf8 hbuf
    (fuel + 1)
  rw [hloop, htaken, decodeBuffer_of_frame hsplit, if_pos hbad, takenUp, hsplit]
  simp [hbad]

end Loop

/-! ## Rounds -/

theorem length_le_buf {buf rest : Bytes} {payloads : List Bytes}
    (h : buf = (payloads.map frame).flatten ++ rest) :
    payloads.length ≤ buf.length := by
  induction payloads generalizing buf with
  | nil => exact Nat.zero_le _
  | cons payload payloads ih =>
      have := ih rfl
      rw [h, List.map_cons, List.flatten_cons, List.append_assoc, List.length_append,
        length_frame, List.length_cons]
      omega

/-- Every frame that has come has been taken up and had a UTF-8 payload. -/
structure Reading (json : JsonLibrary) (bytes : Bytes) (taken : List Bytes)
    (c : Connection) : Prop where
  state : c.state = .reading
  framed : Framed bytes taken c.buf
  utf8 : ∀ payload ∈ taken, utf8Decode payload ≠ none
  received : c.received = taken.filterMap (parsePayload json)

structure Crashed (json : JsonLibrary) (bytes : Bytes) (taken : List Bytes)
    (bad : Bytes) (c : Connection) : Prop where
  state : c.state = .crashed
  fits : ∀ payload ∈ taken ++ [bad], payload.length < 2 ^ 32
  bytes : ∃ rest, bytes = ((taken ++ [bad]).map frame).flatten ++ rest
  utf8 : ∀ payload ∈ taken, utf8Decode payload ≠ none
  bad : utf8Decode bad = none
  received : c.received = taken.filterMap (parsePayload json)

private theorem utf8_or_first_bad (payloads : List Bytes) :
    (∀ payload ∈ payloads, utf8Decode payload ≠ none) ∨
      ∃ good bad after, payloads = good ++ bad :: after ∧
        (∀ payload ∈ good, utf8Decode payload ≠ none) ∧
        utf8Decode bad = none := by
  induction payloads with
  | nil => exact .inl (by simp)
  | cons payload payloads ih =>
      by_cases hbad : utf8Decode payload = none
      · exact .inr ⟨[], payload, payloads, rfl, by simp, hbad⟩
      · rcases ih with hutf8 | ⟨good, bad, after, rfl, hgood, hdecode⟩
        · exact .inl (List.forall_mem_cons.mpr ⟨hbad, hutf8⟩)
        · exact .inr ⟨payload :: good, bad, after, rfl,
            List.forall_mem_cons.mpr ⟨hbad, hgood⟩, hdecode⟩

section Rounds

variable {json : JsonLibrary} {bytes : Bytes} {taken : List Bytes}
  {c : Connection}

variable (json) in
private theorem reading_new : Reading json [] [] new :=
  ⟨rfl, ⟨by simp, rfl, rfl⟩, by simp, rfl⟩

theorem Reading.chunk (h : Reading json bytes taken c) {chunk : Bytes}
    (hchunk : chunk ≠ []) :
    Reading json (bytes ++ chunk) (taken ++ takenUpBy c (.chunk chunk))
        (receive json c (.chunk chunk)) ∨
      ∃ good bad, taken ++ takenUpBy c (.chunk chunk) = good ++ [bad] ∧
        Crashed json (bytes ++ chunk) good bad (receive json c (.chunk chunk)) := by
  have hround : receive json c (.chunk chunk) =
      decodeBuffer json (c.buf ++ chunk).length
        { c with buf := c.buf ++ chunk } := by
    unfold receive
    rw [if_pos h.state]
    cases chunk with
    | nil => exact absurd rfl hchunk
    | cons byte tail => rfl
  have htaken : takenUpBy c (.chunk chunk) =
      takenUp (c.buf ++ chunk).length (c.buf ++ chunk) := if_pos h.state
  obtain ⟨payloads, tail, hframed⟩ := exists_framed (c.buf ++ chunk)
  have hfits := List.forall_mem_append.mpr ⟨h.framed.fits, hframed.fits⟩
  have hall := h.framed.append hframed
  rw [hround, htaken]
  rcases utf8_or_first_bad payloads with hutf8 | ⟨good, bad, after, rfl, hgood, hbad⟩
  · left
    obtain ⟨fuel, hfuel⟩ := Nat.exists_eq_add_of_le (length_le_buf hframed.buf)
    obtain ⟨hloop, hseen⟩ := decodeBuffer_utf8 json
      (c := { c with buf := c.buf ++ chunk }) hframed.fits hutf8 hframed.buf fuel
    rw [← hfuel] at hloop hseen
    rw [hloop, hseen, decodeBuffer_of_none hframed.tail,
      takenUp_of_none hframed.tail, List.append_nil]
    refine ⟨h.state, hall, List.forall_mem_append.mpr ⟨h.utf8, hutf8⟩, ?_⟩
    rw [h.received, List.filterMap_append]
  · right
    have hsplit : good ++ bad :: after = (good ++ [bad]) ++ after := by simp
    have hfirst : ∀ payload ∈ good ++ [bad], payload.length < 2 ^ 32 :=
      fun payload hmem => hframed.fits payload (by
        rw [hsplit]
        exact List.mem_append_left _ hmem)
    have hbuf : c.buf ++ chunk = ((good ++ [bad]).map frame).flatten ++
        ((after.map frame).flatten ++ tail) := by
      rw [hframed.buf, hsplit, List.map_append, List.flatten_append,
        List.append_assoc]
    have hle := length_le_buf hbuf
    rw [List.length_append, List.length_singleton] at hle
    obtain ⟨fuel, hfuel⟩ := Nat.exists_eq_add_of_le hle
    rw [Nat.add_assoc, Nat.add_comm 1] at hfuel
    obtain ⟨hloop, hseen⟩ := decodeBuffer_not_utf8 json
      (c := { c with buf := c.buf ++ chunk }) hfirst hgood hbad hbuf fuel
    rw [← hfuel] at hloop hseen
    rw [hloop, hseen]
    refine ⟨taken ++ good, bad, (List.append_assoc _ _ _).symm, rfl, ?_, ?_,
      List.forall_mem_append.mpr ⟨h.utf8, hgood⟩, hbad, ?_⟩
    · rw [List.append_assoc]
      exact List.forall_mem_append.mpr ⟨h.framed.fits, hfirst⟩
    · refine ⟨(after.map frame).flatten ++ tail, ?_⟩
      rw [hall.buf]
      simp
    · rw [h.received, List.filterMap_append]

theorem Reading.step (h : Reading json bytes taken c) {event : Recv}
    (harrives : event.Arrives) :
    Reading json (bytes ++ event.bytes) (taken ++ takenUpBy c event)
        (receive json c event) ∨
      ∃ good bad, taken ++ takenUpBy c event = good ++ [bad] ∧
        Crashed json (bytes ++ event.bytes) good bad (receive json c event) := by
  cases event with
  | chunk chunk => exact h.chunk harrives
  | timeout =>
      left
      have hstay : receive json c .timeout = c := by
        unfold receive
        rw [if_pos h.state]
      have hnone : takenUpBy c .timeout = [] := by
        rw [takenUpBy, if_pos h.state, Recv.bytes, List.append_nil]
        exact takenUp_of_none h.framed.tail _
      rw [hstay, hnone, Recv.bytes, List.append_nil, List.append_nil]
      exact h
  | stopped => exact harrives.elim
  | osError => exact harrives.elim

theorem Crashed.step {bad : Bytes} (h : Crashed json bytes taken bad c)
    (event : Recv) :
    Crashed json (bytes ++ event.bytes) taken bad (receive json c event) ∧
      takenUpBy c event = [] := by
  have hstate : ¬ c.state = .reading := by
    rw [h.state]
    decide
  have hstay : receive json c event = c := if_neg hstate
  rw [hstay]
  obtain ⟨rest, hrest⟩ := h.bytes
  refine ⟨⟨h.state, h.fits, ⟨rest ++ event.bytes, ?_⟩, h.utf8, h.bad, h.received⟩,
    if_neg hstate⟩
  rw [hrest, List.append_assoc]

theorem Crashed.run {bad : Bytes} (h : Crashed json bytes taken bad c)
    (events : List Recv) :
    Crashed json (bytes ++ events.flatMap Recv.bytes) taken bad
        (events.foldl (receive json) c) ∧
      processed json c events = [] := by
  induction events generalizing bytes c with
  | nil =>
      rw [List.flatMap_nil, List.append_nil]
      exact ⟨h, rfl⟩
  | cons event events ih =>
      obtain ⟨hstep, hnone⟩ := h.step event
      obtain ⟨hrun, hlater⟩ := ih hstep
      rw [List.flatMap_cons, ← List.append_assoc, processed, hnone, hlater]
      exact ⟨hrun, rfl⟩

theorem Reading.run (h : Reading json bytes taken c) {events : List Recv}
    (harrives : ∀ event ∈ events, event.Arrives) :
    Reading json (bytes ++ events.flatMap Recv.bytes)
        (taken ++ processed json c events) (events.foldl (receive json) c) ∨
      ∃ good bad, taken ++ processed json c events = good ++ [bad] ∧
        Crashed json (bytes ++ events.flatMap Recv.bytes) good bad
          (events.foldl (receive json) c) := by
  induction events generalizing bytes taken c with
  | nil =>
      left
      rw [List.flatMap_nil, List.append_nil, processed, List.append_nil]
      exact h
  | cons event events ih =>
      obtain ⟨hfirst, hothers⟩ := List.forall_mem_cons.mp harrives
      rw [List.flatMap_cons, ← List.append_assoc, processed, ← List.append_assoc,
        List.foldl_cons]
      rcases h.step hfirst with hstep | ⟨good, bad, htaken, hstep⟩
      · exact ih hstep hothers
      · right
        obtain ⟨hrun, hlater⟩ := hstep.run events
        rw [hlater, List.append_nil]
        exact ⟨good, bad, htaken, hrun⟩

variable (json) in
private theorem handleConnection_framed {payloads : List Bytes} {tail : Bytes}
    {events : List Recv} (hframed : Framed (events.flatMap Recv.bytes) payloads tail)
    (harrives : ∀ event ∈ events, event.Arrives) :
    ((∀ payload ∈ payloads, utf8Decode payload ≠ none) ∧
        processed json new events = payloads ∧
        (handleConnection json events).received =
          payloads.filterMap (parsePayload json)) ∨
      ∃ good bad later, payloads = good ++ bad :: later ∧
        (∀ payload ∈ good, utf8Decode payload ≠ none) ∧
        utf8Decode bad = none ∧ processed json new events = good ++ [bad] ∧
        (handleConnection json events).received =
          good.filterMap (parsePayload json) := by
  rcases (reading_new json).run harrives with
    hend | ⟨good, bad, htaken, hend⟩
  · left
    rw [List.nil_append, List.nil_append] at hend
    obtain ⟨later, hlater, hrest⟩ :=
      hframed.prefix_of_append hend.framed.fits hend.framed.buf
    -- what is left in the buffer is no whole frame
    have hnone : later = [] := by
      cases later with
      | nil => rfl
      | cons payload later =>
          have hsplit := hend.framed.tail
          rw [hrest.buf, List.map_cons, List.flatten_cons, List.append_assoc,
            splitFrame_frame (hrest.fits payload (by simp))] at hsplit
          cases hsplit
    rw [hnone, List.append_nil] at hlater
    rw [hlater]
    exact ⟨hend.utf8, rfl, hend.received⟩
  · right
    rw [List.nil_append] at htaken hend
    obtain ⟨rest, hrest⟩ := hend.bytes
    obtain ⟨later, hlater, -⟩ := hframed.prefix_of_append hend.fits hrest
    exact ⟨good, bad, later, by simpa using hlater, hend.utf8, hend.bad, htaken,
      hend.received⟩

/--
`on_message` is called exactly for the frames that hold a message, and each frame
behind one that holds none is taken up, if and only if every frame but the last
has a UTF-8 payload.
-/
theorem handleConnection_calls_iff (json : JsonLibrary) (payloads : List Bytes)
    (tail : Bytes) (events : List Recv)
    (hframed : Framed (events.flatMap Recv.bytes) payloads tail)
    (harrives : ∀ event ∈ events, event.Arrives) :
    ((handleConnection json events).received =
          payloads.filterMap (parsePayload json) ∧
        ∀ before payload after, payloads = before ++ payload :: after →
          (∃ bad ∈ before, parsePayload json bad = none) →
          before ++ [payload] <+: processed json new events) ↔
      ∀ payload ∈ payloads.dropLast, utf8Decode payload ≠ none := by
  rcases handleConnection_framed json hframed harrives with
    ⟨hutf8, htaken, hreceived⟩ |
      ⟨good, bad, later, rfl, hgood, hbad, htaken, hreceived⟩
  · constructor
    · intro _ payload hmem
      exact hutf8 payload (List.dropLast_subset payloads hmem)
    · intro _
      refine ⟨hreceived, fun before payload after hsplit _ => ?_⟩
      rw [htaken, hsplit]
      exact ⟨after, by simp⟩
  · have hparse : parsePayload json bad = none := by
      rw [parsePayload, hbad]
      rfl
    cases later with
    | nil =>
        rw [List.dropLast_concat]
        refine iff_of_true ⟨?_, fun before payload after hsplit _ => ?_⟩ hgood
        · rw [hreceived, List.filterMap_append, List.filterMap_cons, hparse]
          simp
        · rw [htaken, hsplit]
          exact ⟨after, by simp⟩
    | cons next later =>
        refine iff_of_false ?_ fun hall => ?_
        · rintro ⟨-, hfollow⟩
          have hpre := hfollow (good ++ [bad]) next later (by simp)
            ⟨bad, by simp, hparse⟩
          have hlength := hpre.length_le
          rw [htaken, List.length_append, List.length_singleton] at hlength
          omega
        · refine hall bad ?_ hbad
          rw [List.dropLast_append_of_ne_nil (by simp)]
          exact List.mem_append_right _ (by simp)

private theorem parsePayload_ping :
    parsePayload pingJson (encode pingJson ping) = some ping := by
  have htext : utf8Decode (encode pingJson ping) = some pingText :=
    utf8Decode_utf8Encode pingText
  rw [parsePayload, htext, Option.bind_some, pingJson]
  exact ping.ofDict_toDict

/-- A byte that no UTF-8 text has, and a message behind it. -/
def notUtf8First : List Bytes := [[255], encode pingJson ping]

theorem notUtf8First_ends_connection :
    Framed (notUtf8First.map frame).flatten notUtf8First [] ∧
      notUtf8First.filterMap (parsePayload pingJson) = [ping] ∧
      (handleConnection pingJson
        [.chunk (notUtf8First.map frame).flatten]).received = [] := by
  have hbad : parsePayload pingJson [255] = none := by
    have hutf8 : utf8Decode [255] = none := by decide +kernel
    rw [parsePayload, hutf8]
    rfl
  refine ⟨⟨by decide +kernel, (List.append_nil _).symm, rfl⟩, ?_, ?_⟩
  · simp [notUtf8First, hbad, parsePayload_ping]
  · rw [← List.length_eq_zero_iff]
    decide +kernel

/-- Text that is no JSON, and a message behind it, in two chunks. -/
def notJsonFirst : List Bytes := [utf8Encode "ping", encode pingJson ping]

def notJsonRounds : List Recv :=
  [.chunk ((notJsonFirst.map frame).flatten.take 6), .timeout,
    .chunk ((notJsonFirst.map frame).flatten.drop 6)]

theorem notJsonFirst_called :
    ((handleConnection pingJson notJsonRounds).received =
          notJsonFirst.filterMap (parsePayload pingJson) ∧
        ∀ before payload after, notJsonFirst = before ++ payload :: after →
          (∃ bad ∈ before, parsePayload pingJson bad = none) →
          before ++ [payload] <+: processed pingJson new notJsonRounds) := by
  have hlong : 6 < (notJsonFirst.map frame).flatten.length := by decide +kernel
  have hbytes : notJsonRounds.flatMap Recv.bytes =
      (notJsonFirst.map frame).flatten := by
    simp only [notJsonRounds, List.flatMap_cons, List.flatMap_nil, Recv.bytes,
      List.nil_append, List.append_nil, List.take_append_drop]
  refine (handleConnection_calls_iff pingJson notJsonFirst [] notJsonRounds
    ⟨by decide +kernel, by rw [hbytes, List.append_nil], rfl⟩ ?_).mpr (by decide +kernel)
  intro event hevent
  simp only [notJsonRounds, List.mem_cons, List.not_mem_nil, or_false] at hevent
  obtain rfl | rfl | rfl := hevent
  all_goals
    simp only [Recv.Arrives, ne_eq, ← List.length_eq_zero_iff, List.length_take,
      List.length_drop]
  all_goals omega

end Rounds

end Connection

end DistributedMemory.Network
