import DistributedMemory.Library.Framing
import Mathlib.Data.List.Induction

/-!
# Messages over a connection

The client writes a message as a frame, the length of its JSON text in UTF-8 and
the text; the server cuts what it receives back into frames.  What `recv` hands
over is any cut of the stream, so a frame can arrive in pieces and a piece can
hold several frames.  The JSON library is a parameter.
-/

namespace DistributedMemory.Network

open DistributedMemory.Library.Framing

/-! ## Messages and their text -/

/-- A value that the JSON library reads or writes; a float is its text. -/
inductive Json where
  | null
  | bool (b : Bool)
  | int (n : Int)
  | float (text : String)
  | str (s : String)
  | arr (items : List Json)
  | obj (fields : List (String × Json))

def Json.truthy : Json → Bool
  | .null => false
  | .bool b => b
  | .int n => n ≠ 0
  | .float text => text ≠ "0.0" ∧ text ≠ "-0.0"
  | .str s => s ≠ ""
  | .arr items => ¬ items.isEmpty
  | .obj fields => ¬ fields.isEmpty

/-- `payload or {}` -/
def Json.orEmpty (payload : Json) : Json :=
  if payload.truthy then payload else .obj []

private theorem Json.orEmpty_orEmpty (payload : Json) :
    payload.orEmpty.orEmpty = payload.orEmpty := by
  unfold orEmpty
  by_cases h : payload.truthy = true
  · rw [if_pos h, if_pos h]
  · rw [if_neg h]
    rfl

/-- A message as its constructor leaves it: the payload is never falsy unless it
is the empty dictionary. -/
structure Message where
  type : Json
  senderId : Json
  receiverId : Json
  timestamp : Json
  payload : Json
  filled : payload.orEmpty = payload

namespace Message

def init (type senderId payload timestamp receiverId : Json) : Message :=
  ⟨type, senderId, receiverId, timestamp, payload.orEmpty,
    payload.orEmpty_orEmpty⟩

/-- The dictionary that `to_json` dumps. -/
def toDict (m : Message) : Json :=
  .obj [("type", m.type), ("sender_id", m.senderId),
    ("receiver_id", m.receiverId), ("timestamp", m.timestamp),
    ("payload", m.payload)]

/-- `from_json` after `json.loads`; `none` where it raises. -/
def ofDict : Json → Option Message
  | .obj fields =>
      let get? (key : String) : Option Json :=
        (fields.find? fun field => field.1 = key).map Prod.snd
      match get? "type", get? "sender_id" with
      | some type, some senderId =>
          some (init type senderId ((get? "payload").getD (.obj []))
            ((get? "timestamp").getD (.int 0))
            ((get? "receiver_id").getD (.int (-1))))
      | _, _ => none
  | _ => none

theorem ofDict_toDict (m : Message) : ofDict m.toDict = some m := by
  obtain ⟨type, senderId, receiverId, timestamp, payload, filled⟩ := m
  simp [toDict, ofDict, init, filled]

end Message

structure JsonLibrary where
  dumps : Json → String
  loads : String → Option Json

/-- `str.encode("utf-8")` -/
def utf8Encode (text : String) : Bytes := text.toUTF8.data.toList

/-- `bytes.decode("utf-8")`; `none` where it raises. -/
def utf8Decode (bytes : Bytes) : Option String :=
  String.fromUTF8? ⟨⟨bytes⟩⟩

theorem utf8Decode_utf8Encode (text : String) :
    utf8Decode (utf8Encode text) = some text := by
  change String.fromUTF8? text.toUTF8 = some text
  rw [String.fromUTF8?, String.toUTF8_eq_toByteArray,
    dif_pos text.isValidUTF8]
  rfl

/-- `message.to_json().encode("utf-8")` in `TransportClient.send` -/
def encode (json : JsonLibrary) (m : Message) : Bytes :=
  utf8Encode (json.dumps m.toDict)

/-- What `TransportClient.send` writes; `struct.pack` raises when the length
does not fit. -/
def sendFrame (json : JsonLibrary) (m : Message) : Option Bytes :=
  if (encode json m).length < 2 ^ 32 then some (frame (encode json m)) else none

/-- The bytes on the connection once these messages have been sent. -/
def stream (json : JsonLibrary) (ms : List Message) : Bytes :=
  (ms.filterMap (sendFrame json)).flatten

/-- The message fits into a frame and the library decodes what it encoded. -/
structure Sendable (json : JsonLibrary) (m : Message) : Prop where
  fits : (encode json m).length < 2 ^ 32
  decodes : json.loads (json.dumps m.toDict) = some m.toDict

theorem sendFrame_of_fits {json : JsonLibrary} {m : Message}
    (h : (encode json m).length < 2 ^ 32) :
    sendFrame json m = some (frame (encode json m)) :=
  if_pos h

theorem stream_cons {json : JsonLibrary} {m : Message}
    (h : (encode json m).length < 2 ^ 32) (ms : List Message) :
    stream json (m :: ms) = frame (encode json m) ++ stream json ms := by
  simp [stream, sendFrame_of_fits h]

theorem stream_append (json : JsonLibrary) (ms ms' : List Message) :
    stream json (ms ++ ms') = stream json ms ++ stream json ms' := by
  simp [stream]

theorem Sendable.parse {json : JsonLibrary} {m : Message}
    (h : Sendable json m) :
    (json.loads (json.dumps m.toDict)).bind Message.ofDict = some m := by
  rw [h.decodes]
  exact m.ofDict_toDict

/-! ## The receiving side -/

/-- `crashed` is after an exception that `_handle_connection` does not catch. -/
inductive ConnectionState where
  | reading
  | closed
  | crashed
  deriving DecidableEq, Repr

/-- The buffer of `_handle_connection`, and the calls of `on_message` so far. -/
structure Connection where
  buf : Bytes
  received : List Message
  state : ConnectionState

/-- What the next round of the loop finds: the server stopped, bytes, nothing
within the timeout, or another socket error. -/
inductive Recv where
  | stopped
  | chunk (bytes : Bytes)
  | timeout
  | osError
  deriving DecidableEq, Repr

/-- A round in which bytes arrive or none do within the timeout. -/
def Recv.Arrives : Recv → Prop
  | .chunk bytes => bytes ≠ []
  | .timeout => True
  | .stopped | .osError => False

def Recv.bytes : Recv → Bytes
  | .chunk bytes => bytes
  | .timeout | .stopped | .osError => []

namespace Connection

def new : Connection := ⟨[], [], .reading⟩

/-- `while len(buf) >= 4`; each round takes at least four bytes off the buffer,
so its length is fuel enough. -/
def decodeBuffer (json : JsonLibrary) : Nat → Connection → Connection
  | 0, c => c
  | fuel + 1, c =>
      if c.buf.length < 4 then c
      else
        let length := unpackLength (c.buf.take 4)
        if c.buf.length < 4 + length then c
        else
          match utf8Decode ((c.buf.drop 4).take length) with
          | none => { c with state := .crashed }
          | some payload =>
              let c := { c with buf := c.buf.drop (4 + length) }
              match (json.loads payload).bind Message.ofDict with
              | none => decodeBuffer json fuel c
              | some msg =>
                  decodeBuffer json fuel
                    { c with received := c.received ++ [msg] }

/-- One round of `while self._running`. -/
def receive (json : JsonLibrary) (c : Connection) (event : Recv) : Connection :=
  if c.state = .reading then
    match event with
    | .stopped => { c with state := .closed }
    | .timeout => c
    | .osError => { c with state := .closed }
    | .chunk [] => { c with state := .closed }
    | .chunk (byte :: rest) =>
        let c := { c with buf := c.buf ++ byte :: rest }
        decodeBuffer json c.buf.length c
  else c

/-- `_handle_connection` after these rounds. -/
def handleConnection (json : JsonLibrary) (events : List Recv) : Connection :=
  events.foldl (receive json) new

/-! ## The loop over the buffer -/

section Decode

variable {json : JsonLibrary} {c : Connection}

theorem decodeBuffer_of_none (h : splitFrame c.buf = none) (fuel : Nat) :
    c.decodeBuffer json fuel = c := by
  cases fuel with
  | zero => rfl
  | succ fuel =>
      unfold splitFrame at h
      unfold decodeBuffer
      by_cases hfour : c.buf.length < 4
      · rw [if_pos hfour]
      · rw [if_neg hfour] at h ⊢
        by_cases hlength : c.buf.length < 4 + unpackLength (c.buf.take 4)
        · simp only [if_pos hlength]
        · simp [hlength] at h

theorem decodeBuffer_of_splitFrame {payload rest : Bytes}
    (h : splitFrame c.buf = some (payload, rest)) (fuel : Nat) :
    c.decodeBuffer json (fuel + 1) =
      match utf8Decode payload with
      | none => { c with state := .crashed }
      | some text =>
          match (json.loads text).bind Message.ofDict with
          | none => decodeBuffer json fuel ⟨rest, c.received, c.state⟩
          | some msg => decodeBuffer json fuel ⟨rest, c.received ++ [msg], c.state⟩ := by
  unfold splitFrame at h
  rw [decodeBuffer]
  by_cases hfour : c.buf.length < 4
  · simp [hfour] at h
  · rw [if_neg hfour] at h ⊢
    by_cases hlength : c.buf.length < 4 + unpackLength (c.buf.take 4)
    · simp [hlength] at h
    · simp only [if_neg hlength, Option.some.injEq, Prod.mk.injEq] at h
      simp only [if_neg hlength, h.1, h.2]

private theorem decodeBuffer_of_some {m : Message} {rest : Bytes}
    (hm : Sendable json m)
    (h : splitFrame c.buf = some (encode json m, rest)) (fuel : Nat) :
    c.decodeBuffer json (fuel + 1) =
      decodeBuffer json fuel ⟨rest, c.received ++ [m], c.state⟩ := by
  have htext : utf8Decode (encode json m) = some (json.dumps m.toDict) :=
    utf8Decode_utf8Encode _
  rw [decodeBuffer_of_splitFrame h, htext]
  simp only [hm.parse]

end Decode

private theorem decodeBuffer_stream {json : JsonLibrary} {ms : List Message}
    (hms : ∀ m ∈ ms, Sendable json m) {c : Connection} {fuel : Nat}
    (hfuel : c.buf.length ≤ fuel) (hpre : c.buf <+: stream json ms) :
    ∃ k ≤ ms.length, ∃ rest,
      c.decodeBuffer json fuel = ⟨rest, c.received ++ ms.take k, c.state⟩ ∧
      c.buf = stream json (ms.take k) ++ rest ∧
      ∀ m ∈ ms[k]?, rest.length < (frame (encode json m)).length := by
  induction ms generalizing c fuel with
  | nil =>
      have hempty : c.buf = [] := List.prefix_nil.mp hpre
      have hnone : splitFrame c.buf = none := by
        rw [hempty]
        rfl
      refine ⟨0, Nat.le_refl _, [], ?_, ?_, ?_⟩
      · rw [decodeBuffer_of_none hnone, ← hempty]
        simp
      · rw [hempty]
        rfl
      · simp
  | cons m ms ih =>
      have hm : Sendable json m := hms m List.mem_cons_self
      rw [stream_cons hm.fits] at hpre
      by_cases hshort : c.buf.length < (frame (encode json m)).length
      · have hpart : c.buf <+: frame (encode json m) :=
          List.prefix_of_prefix_length_le hpre (List.prefix_append _ _)
            (Nat.le_of_lt hshort)
        refine ⟨0, Nat.zero_le _, c.buf, ?_, ?_, ?_⟩
        · rw [decodeBuffer_of_none (splitFrame_of_short hm.fits hpart hshort)]
          simp
        · rfl
        · intro next hnext
          cases hnext
          exact hshort
      · have hwhole : frame (encode json m) <+: c.buf :=
          List.prefix_of_prefix_length_le (List.prefix_append _ _) hpre
            (Nat.le_of_not_lt hshort)
        obtain ⟨buf, hbuf⟩ := hwhole
        rw [← hbuf, List.prefix_append_right_inj] at hpre
        have hsplit : splitFrame c.buf = some (encode json m, buf) := by
          rw [← hbuf]
          exact splitFrame_frame hm.fits buf
        have hlength : c.buf.length = 4 + (encode json m).length + buf.length := by
          rw [← hbuf, List.length_append, length_frame]
        -- the fuel of the next round still covers what is left of the buffer
        obtain ⟨fuel, rfl⟩ :=
          Nat.exists_eq_succ_of_ne_zero (by omega : fuel ≠ 0)
        have hrest : ∀ m ∈ ms, Sendable json m := fun m hmem =>
          hms m (List.mem_cons_of_mem _ hmem)
        obtain ⟨k, hk, rest, hloop, htaken, hnext⟩ :=
          ih hrest (c := ⟨buf, c.received ++ [m], c.state⟩)
            (by omega : buf.length ≤ fuel) hpre
        refine ⟨k + 1, Nat.succ_le_succ hk, rest, ?_, ?_, ?_⟩
        · rw [decodeBuffer_of_some hm hsplit, hloop]
          simp
        · rw [← hbuf, List.take_succ_cons, stream_cons hm.fits,
            List.append_assoc]
          exact congrArg _ htaken
        · rw [List.getElem?_cons_succ]
          exact hnext

/-! ## Runs -/

/-- What the connection is after a part of the stream of `ms`: the messages
whose frames are complete have been handed over, the bytes behind them are in
the buffer, and they do not hold the next frame. -/
def Decoded (json : JsonLibrary) (ms : List Message) (bytes : Bytes)
    (c : Connection) : Prop :=
  c.state = .reading ∧ ∃ k ≤ ms.length, c.received = ms.take k ∧
    bytes = stream json (ms.take k) ++ c.buf ∧
    ∀ m ∈ ms[k]?, c.buf.length < (frame (encode json m)).length

section Runs

variable {json : JsonLibrary} {ms : List Message} {bytes : Bytes}
  {c : Connection}

private theorem decoded_new : Decoded json ms [] new := by
  refine ⟨rfl, 0, Nat.zero_le _, rfl, rfl, ?_⟩
  intro m _
  rw [length_frame]
  exact Nat.lt_of_lt_of_le (by decide) (Nat.le_add_right 4 _)

theorem Decoded.chunk (hms : ∀ m ∈ ms, Sendable json m)
    (h : Decoded json ms bytes c) {chunk : Bytes} (hchunk : chunk ≠ [])
    (hpre : bytes ++ chunk <+: stream json ms) :
    Decoded json ms (bytes ++ chunk) (receive json c (.chunk chunk)) := by
  obtain ⟨hstate, k, hk, hreceived, hbytes, -⟩ := h
  have hms' : ∀ m ∈ ms.drop k, Sendable json m := fun m hmem =>
    hms m (List.mem_of_mem_drop hmem)
  have hstream : stream json ms =
      stream json (ms.take k) ++ stream json (ms.drop k) := by
    rw [← stream_append, List.take_append_drop]
  have hbuf : c.buf ++ chunk <+: stream json (ms.drop k) := by
    rw [hbytes, hstream, List.append_assoc,
      List.prefix_append_right_inj] at hpre
    exact hpre
  have hround : receive json c (.chunk chunk) =
      decodeBuffer json (c.buf ++ chunk).length
        { c with buf := c.buf ++ chunk } := by
    unfold receive
    rw [if_pos hstate]
    cases chunk with
    | nil => exact absurd rfl hchunk
    | cons byte tail => rfl
  obtain ⟨j, hj, rest, hloop, htaken, hnext⟩ :=
    decodeBuffer_stream hms' (c := { c with buf := c.buf ++ chunk })
      (Nat.le_refl _) hbuf
  rw [List.length_drop] at hj
  rw [hround, hloop]
  refine ⟨hstate, k + j, by omega, ?_, ?_, ?_⟩
  · rw [List.take_add, hreceived]
  · change c.buf ++ chunk = _ at htaken
    rw [List.take_add, stream_append, List.append_assoc, ← htaken, hbytes,
      List.append_assoc]
  · rw [← List.getElem?_drop]
    exact hnext

theorem Decoded.step (hms : ∀ m ∈ ms, Sendable json m)
    (h : Decoded json ms bytes c) {event : Recv} (harrives : event.Arrives)
    (hpre : bytes ++ event.bytes <+: stream json ms) :
    Decoded json ms (bytes ++ event.bytes) (receive json c event) := by
  cases event with
  | chunk chunk => exact h.chunk hms harrives hpre
  | timeout =>
      have hstay : receive json c .timeout = c := by
        unfold receive
        rw [if_pos h.1]
      rw [hstay, Recv.bytes, List.append_nil]
      exact h
  | stopped => exact harrives.elim
  | osError => exact harrives.elim

private theorem decoded_handleConnection (hms : ∀ m ∈ ms, Sendable json m)
    {events : List Recv} (harrives : ∀ event ∈ events, event.Arrives)
    (hpre : events.flatMap Recv.bytes <+: stream json ms) :
    Decoded json ms (events.flatMap Recv.bytes)
      (handleConnection json events) := by
  induction events using List.reverseRecOn with
  | nil => exact decoded_new
  | append_singleton events event ih =>
      simp only [List.flatMap_append, List.flatMap_singleton] at hpre ⊢
      have hbefore := ih
        (fun earlier hmem => harrives _ (List.mem_append_left _ hmem))
        ((List.prefix_append _ _).trans hpre)
      have hlast : event.Arrives := harrives _ (by simp)
      rw [handleConnection, List.foldl_append]
      exact hbefore.step hms hlast hpre

theorem Decoded.all (hms : ∀ m ∈ ms, Sendable json m)
    (h : Decoded json ms (stream json ms) c) :
    c.received = ms ∧ c.buf = [] := by
  obtain ⟨-, k, hk, hreceived, hbytes, hnext⟩ := h
  have hbuf : c.buf = stream json (ms.drop k) := by
    have hsplit := stream_append json (ms.take k) (ms.drop k)
    rw [List.take_append_drop, hbytes] at hsplit
    exact List.append_cancel_left hsplit
  cases hdrop : ms.drop k with
  | nil =>
      have hend : ms.length ≤ k := List.drop_eq_nil_iff.mp hdrop
      rw [hdrop] at hbuf
      exact ⟨by rw [hreceived, List.take_of_length_le hend], hbuf⟩
  | cons m rest =>
      have hm : m ∈ ms[k]? := by
        rw [Option.mem_def, ← Nat.add_zero k, ← List.getElem?_drop, hdrop]
        rfl
      have hfits := (hms m (List.mem_of_getElem? hm)).fits
      have hlong := hnext m hm
      rw [hbuf, hdrop, stream_cons hfits, List.length_append] at hlong
      omega

/-- Whatever the cuts between the chunks and the timeouts between them, the
messages whose last byte has arrived have been handed over in order, each once,
and the buffer holds the bytes behind them. -/
theorem handleConnection_exact (json : JsonLibrary) (ms : List Message)
    (hfits : ∀ m ∈ ms, (encode json m).length < 2 ^ 32)
    (hjson : ∀ m ∈ ms, json.loads (json.dumps m.toDict) = some m.toDict)
    (events : List Recv) (harrives : ∀ event ∈ events, event.Arrives)
    (hpre : events.flatMap Recv.bytes <+: stream json ms) :
    Decoded json ms (events.flatMap Recv.bytes)
        (handleConnection json events) ∧
      (events.flatMap Recv.bytes = stream json ms →
        (handleConnection json events).received = ms ∧
          (handleConnection json events).buf = []) := by
  have hms : ∀ m ∈ ms, Sendable json m := fun m hmem =>
    ⟨hfits m hmem, hjson m hmem⟩
  have hdecoded := decoded_handleConnection hms harrives hpre
  constructor
  · exact hdecoded
  · intro hwhole
    rw [hwhole] at hdecoded
    exact hdecoded.all hms

def ping : Message := .init (.str "PING") (.int 0) .null (.int 1) (.int 99)

def pong : Message := .init (.str "PONG") (.int 99) .null (.int 2) (.int 0)

def pingText : String :=
  "\x7b\"type\": \"PING\", \"sender_id\": 0, \"receiver_id\": 99, " ++
  "\"timestamp\": 1, \"payload\": \x7b\x7d\x7d"

def pongText : String :=
  "\x7b\"type\": \"PONG\", \"sender_id\": 99, \"receiver_id\": 0, " ++
  "\"timestamp\": 2, \"payload\": \x7b\x7d\x7d"

/-- The JSON library on the dictionaries of the two messages. -/
def pingJson : JsonLibrary where
  dumps
    | .obj ((_, .str "PING") :: _) => pingText
    | _ => pongText
  loads text :=
    if text = pingText then some ping.toDict
    else if text = pongText then some pong.toDict
    else none

/-- The first cut is in a length prefix, the second inside the second message. -/
def pingRounds : List Recv :=
  let bytes := stream pingJson [ping, pong]
  [.chunk (bytes.take 2), .timeout, .chunk ((bytes.drop 2).take 100),
    .chunk ((bytes.drop 2).drop 100)]

theorem pingRounds_exact :
    (handleConnection pingJson pingRounds).received = [ping, pong] ∧
      (handleConnection pingJson pingRounds).buf = [] := by
  have hfits : ∀ m ∈ [ping, pong], (encode pingJson m).length < 2 ^ 32 := by
    decide +kernel
  have hjson : ∀ m ∈ [ping, pong],
      pingJson.loads (pingJson.dumps m.toDict) = some m.toDict := by
    have hping : pingJson.dumps ping.toDict = pingText := rfl
    have hpong : pingJson.dumps pong.toDict = pongText := rfl
    have hdiffer : pongText ≠ pingText := by decide
    intro m hm
    simp only [List.mem_cons, List.not_mem_nil, or_false] at hm
    obtain rfl | rfl := hm
    · rw [hping]
      simp [pingJson]
    · rw [hpong]
      simp [pingJson, hdiffer]
  have harrives : ∀ event ∈ pingRounds, event.Arrives := by
    have hlong : 102 < (stream pingJson [ping, pong]).length := by
      decide +kernel
    intro event hevent
    simp only [pingRounds, List.mem_cons, List.not_mem_nil, or_false] at hevent
    obtain rfl | rfl | rfl | rfl := hevent
    all_goals
      simp only [Recv.Arrives, ne_eq, ← List.length_eq_zero_iff,
        List.length_take, List.length_drop]
    all_goals omega
  have hbytes : pingRounds.flatMap Recv.bytes = stream pingJson [ping, pong] := by
    simp only [pingRounds, List.flatMap_cons, List.flatMap_nil, Recv.bytes,
      List.nil_append, List.append_nil, List.take_append_drop]
  exact (handleConnection_exact pingJson [ping, pong] hfits hjson pingRounds
    harrives (hbytes ▸ List.prefix_refl _)).2 hbytes

end Runs

end Connection

end DistributedMemory.Network
