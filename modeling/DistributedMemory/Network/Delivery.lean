import DistributedMemory.Library.Dict
import DistributedMemory.Library.Run
import DistributedMemory.Network.Clock
import DistributedMemory.Network.Transport
import Mathlib.Data.List.Perm.Subperm
import Mathlib.Logic.Function.Basic

/-!
# Sending over connections

The clients and the servers of all nodes.  A client keeps one connection for each
target and makes a new one when the old one no longer answers; the send lock of a
target lets one `send` at a time write to it.  `sendall` writes a frame in pieces
and may fail after any of them but the last; `send` returns in a step of its own.  The
bytes of a connection come in order; when the connection breaks, what is on its way is
lost.  Every connection has a thread of its own at the server, which takes the frames
off its buffer one by one between two calls of `recv`.

`sent`, `part`, `returned` and `ended` are no fields of the source: they record the
messages that a connection carried completely, the piece of a frame behind them, what
the calls of `send` returned, and the messages of those whose process ended between
the last byte and the return.
-/

namespace DistributedMemory.Network

open DistributedMemory.Library DistributedMemory.Library.Framing

/-- A connection: `server` is what `_handle_connection` has made of it, `decoding` that
it is in the loop over its buffer. -/
structure Link where
  source : NodeId
  target : NodeId
  isOpen : Bool
  inFlight : Bytes
  server : Connection
  decoding : Bool
  sent : List Message
  part : Bytes

def Link.new (source target : NodeId) : Link :=
  ⟨source, target, true, [], .new, false, [], []⟩

/-- The process of `n` ends. -/
def Link.crash (json : JsonLibrary) (n : NodeId) (l : Link) : Link :=
  { l with
    isOpen := l.isOpen && l.source ≠ n
    server := if l.target = n then l.server.receive json .stopped else l.server }

/-- One round of `while len(buf) >= 4`; `none` where the loop ends. -/
def Connection.decodeFrame (json : JsonLibrary) (c : Connection) :
    Option Connection :=
  match splitFrame c.buf with
  | none => none
  | some (payload, rest) =>
      match utf8Decode payload with
      | none => some { c with state := .crashed }
      | some text =>
          match (json.loads text).bind Message.ofDict with
          | none => some { c with buf := rest }
          | some msg => some { c with buf := rest, received := c.received ++ [msg] }

def Link.decode (json : JsonLibrary) (l : Link) : Link :=
  match l.server.decodeFrame json with
  | none => { l with decoding := false }
  | some server => { l with server := server }

/-- A call of `send` that holds the send lock, and the bytes it has yet to write. -/
structure PendingSend where
  message : Message
  link : Nat
  left : Bytes

def PendingSend.written (call : PendingSend) : List Message :=
  if call.left = [] then [call.message] else []

structure SendReturn where
  source : NodeId
  target : NodeId
  message : Message
  ok : Bool

/-- `connections n` is `_connections` of the client of `n`. -/
structure TransportSystem where
  connections : NodeId → Dict NodeId Nat
  sending : NodeId → NodeId → Option PendingSend
  links : List Link
  returned : List SendReturn
  ended : NodeId → NodeId → List Message

/-- `alive` is whether `getpeername` answers on a connection that is not closed,
`accepts` whether the server of the target is there to connect to. -/
inductive TransportAction where
  | send (n target : NodeId) (message : Message) (alive accepts : Bool)
  | write (n target : NodeId) (k : Nat)
  | fail (n target : NodeId)
  | returns (n target : NodeId)
  | recv (i k : Nat)
  | decode (i : Nat)
  | pass (i : Nat) (event : Recv)
  | closeAll (n : NodeId)
  | crash (n : NodeId)

namespace TransportSystem

def new : TransportSystem :=
  ⟨fun _ => .empty, fun _ _ => none, [], [], fun _ _ => []⟩

def setSending (s : TransportSystem) (n target : NodeId)
    (call : Option PendingSend) : TransportSystem :=
  { s with
    sending := Function.update s.sending n
      (Function.update (s.sending n) target call) }

def setConnections (s : TransportSystem) (n : NodeId)
    (connections : Dict NodeId Nat) : TransportSystem :=
  { s with connections := Function.update s.connections n connections }

def setLink (s : TransportSystem) (i : Nat) (l : Link) : TransportSystem :=
  { s with links := s.links.set i l }

def record (s : TransportSystem) (n target : NodeId) (message : Message)
    (ok : Bool) : TransportSystem :=
  { s with returned := s.returned ++ [⟨n, target, message, ok⟩] }

/-- The part of `_get_connection` that makes a new one. -/
def connect (s : TransportSystem) (n target : NodeId) (accepts : Bool) :
    TransportSystem × Option Nat :=
  if accepts then
    ({ s with
        connections := Function.update s.connections n
          ((s.connections n).set target s.links.length)
        links := s.links ++ [.new n target] }, some s.links.length)
  else (s, none)

def getConnection (s : TransportSystem) (n target : NodeId)
    (alive accepts : Bool) : TransportSystem × Option Nat :=
  match (s.connections n).get? target with
  | some i =>
      if alive ∧ s.links[i]?.any Link.isOpen then (s, some i)
      else
        (s.setConnections n ((s.connections n).pop target)).connect n target
          accepts
  | none => s.connect n target accepts

/-- `send` up to `sendall`; when the frame is too long, `struct.error` leaves it. -/
def send (json : JsonLibrary) (s : TransportSystem) (n target : NodeId)
    (message : Message) (alive accepts : Bool) : TransportSystem :=
  match s.getConnection n target alive accepts with
  | (s, none) => s.record n target message false
  | (s, some i) =>
      match sendFrame json message with
      | none => s
      | some frame => s.setSending n target (some ⟨message, i, frame⟩)

/-- A piece of `k` bytes of `sendall`. -/
def write (s : TransportSystem) (n target : NodeId) (call : PendingSend) (l : Link)
    (k : Nat) : TransportSystem :=
  let l := { l with inFlight := l.inFlight ++ call.left.take k }
  let l :=
    if k < call.left.length then { l with part := l.part ++ call.left.take k }
    else { l with sent := l.sent ++ [call.message], part := [] }
  (s.setLink call.link l).setSending n target
    (some { call with left := call.left.drop k })

/-- `return True` -/
def returns (s : TransportSystem) (n target : NodeId) (call : PendingSend) :
    TransportSystem :=
  (s.setSending n target none).record n target call.message true

def fail (s : TransportSystem) (n target : NodeId) (call : PendingSend) (l : Link) :
    TransportSystem :=
  (s.setConnections n ((s.connections n).pop target))
    |>.setLink call.link { l with isOpen := false }
    |>.setSending n target none
    |>.record n target call.message false

/-- `conn.close()` -/
def close (s : TransportSystem) (i : Nat) : TransportSystem :=
  match s.links[i]? with
  | none => s
  | some l => s.setLink i { l with isOpen := false }

def closeAll (s : TransportSystem) (n : NodeId) : TransportSystem :=
  (((s.connections n).items.map Prod.snd).foldl close s).setConnections n .empty

/-- The process of `n` ends. -/
def crash (json : JsonLibrary) (s : TransportSystem) (n : NodeId) :
    TransportSystem :=
  { s.setConnections n .empty with
    sending := Function.update s.sending n fun _ => none
    links := s.links.map (Link.crash json n)
    ended := Function.update s.ended n fun target =>
      s.ended n target ++ (s.sending n target).elim [] PendingSend.written }

def step (json : JsonLibrary) (s : TransportSystem) :
    TransportAction → Option TransportSystem
  | .send n target message alive accepts =>
      match s.sending n target with
      | none => some (s.send json n target message alive accepts)
      | some _ => none
  | .write n target k =>
      match s.sending n target with
      | none => none
      | some call =>
          match s.links[call.link]? with
          | none => none
          | some l =>
              if l.isOpen ∧ 0 < k ∧ k ≤ call.left.length then
                some (s.write n target call l k)
              else none
  | .fail n target =>
      match s.sending n target with
      | none => none
      | some call =>
          if call.left = [] then none
          else s.links[call.link]?.map (s.fail n target call)
  | .returns n target =>
      match s.sending n target with
      | none => none
      | some call =>
          if call.left = [] then some (s.returns n target call) else none
  | .recv i k =>
      match s.links[i]? with
      | none => none
      | some l =>
          if l.server.state = .reading ∧ l.decoding = false ∧ 0 < k ∧
              k ≤ l.inFlight.length then
            some (s.setLink i { l with
              inFlight := l.inFlight.drop k
              server :=
                { l.server with buf := l.server.buf ++ l.inFlight.take k }
              decoding := true })
          else none
  | .decode i =>
      match s.links[i]? with
      | none => none
      | some l =>
          if l.server.state = .reading ∧ l.decoding = true then
            some (s.setLink i (l.decode json))
          else none
  | .pass i event =>
      match s.links[i]? with
      | none => none
      | some l =>
          if l.server.state = .reading ∧ l.decoding = false ∧ event.bytes = [] then
            some (s.setLink i { l with server := l.server.receive json event })
          else none
  | .closeAll n => some (s.closeAll n)
  | .crash n => some (s.crash json n)

/-! ## One connection -/

end TransportSystem

section Link

variable {json : JsonLibrary}

/-- `decodeBuffer` makes these rounds. -/
theorem decodeBuffer_succ {c : Connection} (hstate : c.state = .reading)
    (fuel : Nat) : c.decodeBuffer json (fuel + 1) =
      match c.decodeFrame json with
      | none => c
      | some c' => if c'.state = .reading then c'.decodeBuffer json fuel else c' := by
  unfold Connection.decodeFrame
  cases hsplit : splitFrame c.buf with
  | none => exact Connection.decodeBuffer_of_none hsplit _
  | some whole =>
      obtain ⟨payload, rest⟩ := whole
      rw [Connection.decodeBuffer_of_splitFrame hsplit]
      cases htext : utf8Decode payload with
      | none => simp [htext]
      | some text =>
          cases hmsg : (json.loads text).bind Message.ofDict <;>
            simp [htext, hmsg, hstate]

structure Link.Unfinished (json : JsonLibrary) (part : Bytes) (m : Message)
    (left : Bytes) : Prop where
  sendable : Sendable json m
  more : left ≠ []
  whole : part ++ left = frame (encode json m)

/-- What is behind the complete frames is less than a frame; the server has handed over
the first of them, the others are in its buffer and on their way. -/
structure Link.Inv (json : JsonLibrary) (l : Link) : Prop where
  sendable : ∀ m ∈ l.sent, Sendable json m
  part : l.part = [] ∨ ∃ m left, Link.Unfinished json l.part m left
  read : ∃ k ≤ l.sent.length, l.server.received = l.sent.take k ∧
    l.server.buf ++ l.inFlight = stream json (l.sent.drop k) ++ l.part
  caught : l.decoding = false → splitFrame l.server.buf = none

namespace Link

theorem inv_new (source target : NodeId) : (new source target).Inv json where
  sendable m hm := by simp [new] at hm
  part := .inl rfl
  read := ⟨0, Nat.le_refl _, rfl, rfl⟩
  caught _ := rfl

variable {l : Link}

/-- A round of the server's loop leaves the sender's side alone. -/
private theorem decode_sender (json : JsonLibrary) (l : Link) :
    (l.decode json).source = l.source ∧ (l.decode json).target = l.target ∧
      (l.decode json).sent = l.sent ∧ (l.decode json).part = l.part := by
  unfold decode
  split <;> exact ⟨rfl, rfl, rfl, rfl⟩

theorem Inv.recv (h : l.Inv json) (k : Nat) :
    ({ l with
        inFlight := l.inFlight.drop k
        server := { l.server with buf := l.server.buf ++ l.inFlight.take k }
        decoding := true } : Link).Inv json := by
  obtain ⟨j, hj, hreceived, hbytes⟩ := h.read
  refine ⟨h.sendable, h.part, ⟨j, hj, hreceived, ?_⟩, fun hidle => by cases hidle⟩
  rw [← hbytes, List.append_assoc, List.take_append_drop]

private theorem splitFrame_of_part {buf more part left : Bytes} {m : Message}
    (h : Unfinished json part m left) (hbuf : buf ++ more = part) :
    splitFrame buf = none := by
  have hpre : buf <+: frame (encode json m) := by
    rw [← h.whole, ← hbuf, List.append_assoc]
    exact List.prefix_append _ _
  refine splitFrame_of_short h.sendable.fits hpre ?_
  have hlength := congrArg List.length h.whole
  have hpos := List.length_pos_iff.mpr h.more
  rw [← hbuf] at hlength
  simp only [List.length_append] at hlength
  omega

private theorem splitFrame_of_next {buf more rest : Bytes} {m : Message}
    (hm : Sendable json m) (hbuf : buf ++ more = frame (encode json m) ++ rest) :
    splitFrame buf = none ∨
      ∃ after, splitFrame buf = some (encode json m, after) ∧
        after ++ more = rest := by
  have hpre : buf <+: frame (encode json m) ++ rest := ⟨more, hbuf⟩
  by_cases hshort : buf.length < (frame (encode json m)).length
  · have hpart : buf <+: frame (encode json m) :=
      List.prefix_of_prefix_length_le hpre (List.prefix_append _ _)
        (Nat.le_of_lt hshort)
    exact .inl (splitFrame_of_short hm.fits hpart hshort)
  · obtain ⟨after, rfl⟩ : frame (encode json m) <+: buf :=
      List.prefix_of_prefix_length_le (List.prefix_append _ _) hpre
        (Nat.le_of_not_lt hshort)
    refine .inr ⟨after, splitFrame_frame hm.fits after, ?_⟩
    rw [List.append_assoc] at hbuf
    exact List.append_cancel_left hbuf

theorem Inv.next (h : l.Inv json) : splitFrame l.server.buf = none ∨
    ∃ k m after, l.sent[k]? = some m ∧ l.server.received = l.sent.take k ∧
      splitFrame l.server.buf = some (encode json m, after) ∧
      after ++ l.inFlight = stream json (l.sent.drop (k + 1)) ++ l.part := by
  obtain ⟨k, hk, hreceived, hbytes⟩ := h.read
  rcases Nat.lt_or_ge k l.sent.length with hlt | hge
  · have hm : Sendable json l.sent[k] := h.sendable _ (List.getElem_mem hlt)
    rw [List.drop_eq_getElem_cons hlt, stream_cons hm.fits, List.append_assoc]
      at hbytes
    refine (splitFrame_of_next hm hbytes).imp_right ?_
    rintro ⟨after, hsplit, hafter⟩
    exact ⟨k, l.sent[k], after, List.getElem?_eq_getElem hlt, hreceived, hsplit,
      hafter⟩
  · rw [List.drop_eq_nil_of_le hge] at hbytes
    left
    rcases h.part with hpart | ⟨m, left, hpart⟩
    · rw [hpart] at hbytes
      have hempty : l.server.buf = [] := (List.append_eq_nil_iff.mp hbytes).1
      rw [hempty]
      rfl
    · exact splitFrame_of_part hpart hbytes

theorem Inv.decode (h : l.Inv json) (hdecoding : l.decoding = true) :
    (l.decode json).Inv json := by
  unfold Link.decode Connection.decodeFrame
  rcases h.next with hnone | ⟨k, m, after, hm, hreceived, hsplit, hafter⟩
  · rw [hnone]
    exact ⟨h.sendable, h.part, h.read, fun _ => hnone⟩
  · obtain ⟨hlt, rfl⟩ := List.getElem?_eq_some_iff.mp hm
    have hsendable := h.sendable _ (List.getElem_mem hlt)
    have htext : utf8Decode (encode json l.sent[k]) =
        some (json.dumps l.sent[k].toDict) := utf8Decode_utf8Encode _
    rw [hsplit]
    simp only [htext, hsendable.parse]
    refine ⟨h.sendable, h.part, ⟨k + 1, hlt, ?_, hafter⟩, fun hidle => ?_⟩
    · rw [hreceived, List.take_succ_eq_append_getElem hlt]
    · rw [hdecoding] at hidle
      cases hidle

theorem Inv.receive (h : l.Inv json) (event : Recv) (hbytes : event.bytes = []) :
    ({ l with server := l.server.receive json event } : Link).Inv json := by
  have hsame : (l.server.receive json event).buf = l.server.buf ∧
      (l.server.receive json event).received = l.server.received := by
    unfold Connection.receive
    split
    · cases event with
      | chunk bytes =>
          cases bytes with
          | nil => exact ⟨rfl, rfl⟩
          | cons byte rest => cases hbytes
      | _ => exact ⟨rfl, rfl⟩
    · exact ⟨rfl, rfl⟩
  refine ⟨h.sendable, h.part, ?_, ?_⟩
  · rw [hsame.1, hsame.2]
    exact h.read
  · rw [hsame.1]
    exact h.caught

private theorem Inv.writePart (h : l.Inv json) {m : Message} (hm : Sendable json m)
    {left : Bytes} (hframe : l.part ++ left = frame (encode json m)) {k : Nat}
    (hk : k < left.length) :
    ({ l with
        inFlight := l.inFlight ++ left.take k
        part := l.part ++ left.take k } : Link).Inv json := by
  obtain ⟨j, hj, hreceived, hbytes⟩ := h.read
  refine ⟨h.sendable, .inr ⟨m, left.drop k, hm, ?_, ?_⟩,
    ⟨j, hj, hreceived, ?_⟩, h.caught⟩
  · intro hnil
    have hlength := congrArg List.length hnil
    rw [List.length_drop, List.length_nil] at hlength
    omega
  · rw [List.append_assoc, List.take_append_drop]
    exact hframe
  · rw [← List.append_assoc, hbytes, List.append_assoc]

private theorem Inv.writeLast (h : l.Inv json) {m : Message} (hm : Sendable json m)
    {left : Bytes} (hframe : l.part ++ left = frame (encode json m)) :
    ({ l with
        inFlight := l.inFlight ++ left
        sent := l.sent ++ [m]
        part := [] } : Link).Inv json := by
  obtain ⟨j, hj, hreceived, hbytes⟩ := h.read
  refine ⟨fun m' hm' => ?_, .inl rfl, ⟨j, ?_, ?_, ?_⟩, h.caught⟩
  · rcases List.mem_append.mp hm' with hm' | hm'
    · exact h.sendable m' hm'
    · exact List.mem_singleton.mp hm' ▸ hm
  · rw [List.length_append]
    exact Nat.le_add_right_of_le hj
  · rw [List.take_append_of_le_length hj]
    exact hreceived
  · have hlast : stream json [m] = frame (encode json m) := by
      rw [stream_cons hm.fits]
      exact List.append_nil _
    rw [List.drop_append_of_le_length hj, stream_append, hlast, ← hframe,
      ← List.append_assoc, hbytes]
    simp

theorem Inv.received (h : l.Inv json) : l.server.received <+: l.sent ∧
    (l.inFlight = [] → l.decoding = false → l.server.received = l.sent) := by
  obtain ⟨k, hk, hreceived, hbytes⟩ := h.read
  rw [hreceived]
  refine ⟨List.take_prefix k l.sent, fun hempty hidle => ?_⟩
  rcases Nat.lt_or_ge k l.sent.length with hlt | hge
  · -- the buffer would hold the next frame
    have hm : Sendable json l.sent[k] := h.sendable _ (List.getElem_mem hlt)
    rw [hempty, List.append_nil, List.drop_eq_getElem_cons hlt, stream_cons hm.fits,
      List.append_assoc] at hbytes
    have hsplit := h.caught hidle
    rw [hbytes, splitFrame_frame hm.fits] at hsplit
    cases hsplit
  · exact List.take_of_length_le hge

end Link

end Link

namespace TransportSystem

/-- What `on_message` of `target` was called with over the connections from `n`. -/
def handedOver (s : TransportSystem) (n target : NodeId) : List Message :=
  s.links.flatMap fun l =>
    if l.source = n ∧ l.target = target then l.server.received else []

/-- The messages of calls of `send` that had written all their bytes and have not
returned, or whose process ended then. -/
def unanswered (s : TransportSystem) (n target : NodeId) : List Message :=
  s.ended n target ++ (s.sending n target).elim [] PendingSend.written

/-- The messages for which `send` returned `True`. -/
def succeeded (s : TransportSystem) (n target : NodeId) : List Message :=
  (s.returned.filter fun r => r.source = n ∧ r.target = target ∧ r.ok).map
    SendReturn.message

/-! ## All connections -/

/-- The messages that the connections from `n` to `target` carried completely. -/
def carried (links : List Link) (n target : NodeId) : List Message :=
  links.flatMap fun l => if l.source = n ∧ l.target = target then l.sent else []

theorem flatMap_set_perm {α β : Type*} (f : α → List β) {items : List α}
    {i : Nat} {a : α} (b : α) (more : List β) (hi : items[i]? = some a)
    (hf : f b = f a ++ more) :
    ((items.set i b).flatMap f).Perm (items.flatMap f ++ more) := by
  obtain ⟨hlt, rfl⟩ := List.getElem?_eq_some_iff.mp hi
  have hsplit : items.flatMap f = (items.take i).flatMap f ++
      (f items[i] ++ (items.drop (i + 1)).flatMap f) := by
    rw [← List.flatMap_cons, ← List.drop_eq_getElem_cons hlt, ← List.flatMap_append,
      List.take_append_drop]
  rw [List.set_eq_take_append_cons_drop, if_pos hlt, hsplit]
  simp only [List.flatMap_append, List.flatMap_cons, hf, List.append_assoc]
  refine (List.Perm.append_left _ ?_).append_left _
  exact List.perm_append_comm

/-- The connection that the client of `n` has for `target`, and the call that
writes to it; a connection to which nobody has bytes to write is between two frames. -/
structure Pair (json : JsonLibrary) (links : List Link) (cached : Option Nat)
    (call : Option PendingSend) (n target : NodeId) : Prop where
  kept : ∀ i, cached = some i → ∃ l : Link, links[i]? = some l ∧ l.source = n ∧
    l.target = target ∧ ((∀ c, call = some c → c.left = []) → l.part = [])
  current : ∀ i c, cached = some i → call = some c → c.link = i
  writes : ∀ c, call = some c → ∃ l : Link, links[c.link]? = some l ∧ l.source = n ∧
    l.target = target ∧ Sendable json c.message ∧
    (c.left ≠ [] → l.part ++ c.left = frame (encode json c.message))

theorem Pair.idle {json : JsonLibrary} {links : List Link} (n target : NodeId) :
    Pair json links none none n target := by
  constructor <;> simp

structure Inv (json : JsonLibrary) (s : TransportSystem) : Prop where
  links : ∀ l ∈ s.links, l.Inv json
  pairs : ∀ n target, Pair json s.links ((s.connections n).get? target)
    (s.sending n target) n target
  ledger : ∀ n target, (carried s.links n target).Perm
    (s.succeeded n target ++ s.unanswered n target)

theorem inv_new (json : JsonLibrary) : new.Inv json where
  links l hl := by simp [new] at hl
  pairs n target := .idle n target
  ledger n target := .refl _

/-- The connections are still there, and those from `n` to `target` are where they
were in their frames. -/
def Extends (n target : NodeId) (links links' : List Link) : Prop :=
  ∀ (i : Nat) (l : Link), links[i]? = some l → ∃ l' : Link, links'[i]? = some l' ∧
    l'.source = l.source ∧ l'.target = l.target ∧
    (l.source = n → l.target = target → l'.part = l.part)

section Pairs

variable {json : JsonLibrary} {links links' : List Link} {cached : Option Nat}
  {call : Option PendingSend} {n target : NodeId}

theorem extends_set {i : Nat} {l l' : Link} (hi : links[i]? = some l)
    (hsource : l'.source = l.source) (htarget : l'.target = l.target)
    (hpart : l.source = n → l.target = target → l'.part = l.part) :
    Extends n target links (links.set i l') := by
  intro j k hj
  by_cases heq : i = j
  · subst heq
    obtain rfl := Option.some.inj (hi.symm.trans hj)
    refine ⟨l', ?_, hsource, htarget, hpart⟩
    rw [List.getElem?_set_self (List.getElem?_eq_some_iff.mp hi).1]
  · refine ⟨k, ?_, rfl, rfl, fun _ _ => rfl⟩
    rw [List.getElem?_set_ne heq]
    exact hj

private theorem extends_append (more : List Link) :
    Extends n target links (links ++ more) := by
  intro i l hi
  refine ⟨l, ?_, rfl, rfl, fun _ _ => rfl⟩
  rw [List.getElem?_append_left (List.getElem?_eq_some_iff.mp hi).1]
  exact hi

theorem Pair.extend (h : Pair json links cached call n target)
    (hlinks : Extends n target links links') :
    Pair json links' cached call n target := by
  refine ⟨fun i hi => ?_, h.current, fun c hc => ?_⟩
  · obtain ⟨l, hl, hsource, htarget, hpart⟩ := h.kept i hi
    obtain ⟨l', hl', hsource', htarget', hpart'⟩ := hlinks i l hl
    refine ⟨l', hl', hsource'.trans hsource, htarget'.trans htarget,
      fun hnone => ?_⟩
    rw [hpart' hsource htarget]
    exact hpart hnone
  · obtain ⟨l, hl, hsource, htarget, hm, hframe⟩ := h.writes c hc
    obtain ⟨l', hl', hsource', htarget', hpart'⟩ := hlinks c.link l hl
    refine ⟨l', hl', hsource'.trans hsource, htarget'.trans htarget, hm, ?_⟩
    rw [hpart' hsource htarget]
    exact hframe

private theorem Pair.forget (h : Pair json links cached call n target) :
    Pair json links none call n target :=
  ⟨nofun, nofun, h.writes⟩

end Pairs

@[simp] theorem sending_setSending (s : TransportSystem) (n target : NodeId)
    (call : Option PendingSend) (m t : NodeId) :
    (s.setSending n target call).sending m t =
      if m = n ∧ t = target then call else s.sending m t := by
  by_cases hm : m = n
  · subst hm
    by_cases ht : t = target <;> simp [setSending, ht]
  · simp [setSending, hm]

theorem unanswered_setSending {s : TransportSystem} {n target : NodeId}
    {call : Option PendingSend} {more : List Message}
    (hmore : call.elim [] PendingSend.written =
      (s.sending n target).elim [] PendingSend.written ++ more) (m t : NodeId) :
    (s.setSending n target call).unanswered m t =
      s.unanswered m t ++ if n = m ∧ target = t then more else [] := by
  simp only [unanswered, sending_setSending]
  by_cases heq : n = m ∧ target = t
  · obtain ⟨rfl, rfl⟩ := heq
    simp [hmore, setSending]
  · have hne : ¬ (m = n ∧ t = target) := fun h => heq ⟨h.1.symm, h.2.symm⟩
    simp [heq, hne, setSending]

theorem get?_connections_setConnections (s : TransportSystem) (n : NodeId)
    (connections : Dict NodeId Nat) (m t : NodeId) :
    ((s.setConnections n connections).connections m).get? t =
      if m = n then connections.get? t else (s.connections m).get? t := by
  by_cases hm : m = n
  · subst hm
    simp [setConnections]
  · simp [setConnections, hm]

section Steps

variable {json : JsonLibrary} {s : TransportSystem} {n target : NodeId}

theorem Inv.setConnections (h : s.Inv json) {connections : Dict NodeId Nat}
    (hsub : ∀ t, connections.get? t = none ∨
      connections.get? t = (s.connections n).get? t) :
    (s.setConnections n connections).Inv json := by
  refine ⟨h.links, fun m t => ?_, h.ledger⟩
  rw [get?_connections_setConnections]
  split
  · next hm =>
    subst hm
    rcases hsub t with hnone | hsame
    · rw [hnone]
      exact (h.pairs m t).forget
    · rw [hsame]
      exact h.pairs m t
  · exact h.pairs m t

theorem Inv.pop (h : s.Inv json) (n target : NodeId) :
    (s.setConnections n ((s.connections n).pop target)).Inv json := by
  refine h.setConnections fun t => ?_
  rw [Dict.get?_pop]
  split
  · exact .inl rfl
  · exact .inr rfl

theorem Inv.setLink (h : s.Inv json) {i : Nat} {l l' : Link}
    (hi : s.links[i]? = some l) (hl' : l'.Inv json)
    (hsource : l'.source = l.source) (htarget : l'.target = l.target)
    (hsent : l'.sent = l.sent) (hpart : l'.part = l.part) :
    (s.setLink i l').Inv json := by
  refine ⟨fun k hk => ?_, fun m t => ?_, fun m t => ?_⟩
  · rcases List.mem_or_eq_of_mem_set hk with hk | rfl
    · exact h.links k hk
    · exact hl'
  · exact (h.pairs m t).extend (extends_set hi hsource htarget fun _ _ => hpart)
  · refine List.Perm.trans ?_ (h.ledger m t)
    have hperm := flatMap_set_perm
      (fun l : Link => if l.source = m ∧ l.target = t then l.sent else [])
      l' [] hi (by rw [hsource, htarget, hsent, List.append_nil])
    rw [List.append_nil] at hperm
    exact hperm

theorem Inv.connect (h : s.Inv json) (hidle : s.sending n target = none)
    (accepts : Bool) : (s.connect n target accepts).1.Inv json := by
  unfold TransportSystem.connect
  split
  · refine ⟨fun l hl => ?_, fun m t => ?_, fun m t => ?_⟩
    · rcases List.mem_append.mp hl with hl | hl
      · exact h.links l hl
      · exact List.mem_singleton.mp hl ▸ Link.inv_new n target
    · have hold := (h.pairs m t).extend (extends_append [Link.new n target])
      by_cases hm : m = n
      · subst hm
        simp only [Function.update_self, Dict.get?_set]
        by_cases ht : t = target
        · subst ht
          rw [if_pos rfl, hidle]
          refine ⟨fun i hi => ?_, by simp, by simp⟩
          cases hi
          exact ⟨.new m t, List.getElem?_concat_length, rfl, rfl, fun _ => rfl⟩
        · rw [if_neg ht]
          exact hold
      · simp only [Function.update_of_ne hm]
        exact hold
    · have hnew : carried (s.links ++ [.new n target]) m t =
          carried s.links m t := by
        simp [carried, Link.new]
      change (carried (s.links ++ [.new n target]) m t).Perm _
      rw [hnew]
      exact h.ledger m t
  · exact h

theorem connect_snd {accepts : Bool} {i : Nat}
    (hi : (s.connect n target accepts).2 = some i) :
    ((s.connect n target accepts).1.connections n).get? target = some i := by
  unfold TransportSystem.connect at hi ⊢
  split at hi
  · next haccepts =>
    cases hi
    simp [haccepts, Dict.get?_set_self]
  · cases hi

theorem sending_connect (accepts : Bool) :
    (s.connect n target accepts).1.sending = s.sending := by
  unfold TransportSystem.connect
  split <;> rfl

theorem Inv.getConnection (h : s.Inv json) (hidle : s.sending n target = none)
    (alive accepts : Bool) :
    (s.getConnection n target alive accepts).1.Inv json ∧
      (s.getConnection n target alive accepts).1.sending = s.sending ∧
      ∀ i, (s.getConnection n target alive accepts).2 = some i →
        ((s.getConnection n target alive accepts).1.connections n).get? target =
          some i := by
  unfold TransportSystem.getConnection
  split
  · next i hi =>
    split
    · exact ⟨h, rfl, fun j hj => by cases hj; exact hi⟩
    · exact ⟨(h.pop n target).connect hidle accepts, sending_connect accepts,
        fun j hj => connect_snd hj⟩
  · exact ⟨h.connect hidle accepts, sending_connect accepts,
      fun j hj => connect_snd hj⟩

theorem succeeded_record (s : TransportSystem) (n target : NodeId) (m : Message)
    (ok : Bool) (n' target' : NodeId) :
    (s.record n target m ok).succeeded n' target' = s.succeeded n' target' ++
      if n = n' ∧ target = target' ∧ ok then [m] else [] := by
  simp only [record, succeeded, List.filter_append, List.map_append]
  congr 1
  by_cases hok : n = n' ∧ target = target' ∧ ok <;> simp [hok]

theorem Inv.recordFailed (h : s.Inv json) (n target : NodeId) (m : Message) :
    (s.record n target m false).Inv json := by
  refine ⟨h.links, h.pairs, fun n' target' => ?_⟩
  rw [succeeded_record, if_neg (by simp), List.append_nil]
  exact h.ledger n' target'

theorem Inv.send (h : s.Inv json) (hidle : s.sending n target = none)
    {m : Message} (hjson : json.loads (json.dumps m.toDict) = some m.toDict)
    (alive accepts : Bool) : (s.send json n target m alive accepts).Inv json := by
  obtain ⟨hinv, hsending, hcached⟩ := h.getConnection hidle alive accepts
  unfold TransportSystem.send
  generalize s.getConnection n target alive accepts = result at *
  obtain ⟨s', connection⟩ := result
  cases connection with
  | none => exact hinv.recordFailed n target m
  | some i =>
      by_cases hfits : (encode json m).length < 2 ^ 32
      · simp only [sendFrame_of_fits hfits]
        have hnone : s'.sending n target = none := by
          rw [hsending]
          exact hidle
        have hframe : frame (encode json m) ≠ [] := fun hnil => by
          have hlength := congrArg List.length hnil
          rw [length_frame, List.length_nil] at hlength
          omega
        refine ⟨hinv.links, fun n' t => ?_, fun n' t => ?_⟩
        · have hpair := hinv.pairs n' t
          rw [sending_setSending]
          split
          · next heq =>
            obtain ⟨rfl, rfl⟩ := heq
            change Pair json s'.links ((s'.connections n').get? t) _ n' t
            have hi := hcached i rfl
            rw [hi] at hpair ⊢
            obtain ⟨l, hl, hsource, htarget, hpart⟩ := hpair.kept i rfl
            have hbetween : l.part = [] := hpart fun c hc => by
              rw [hnone] at hc
              cases hc
            refine ⟨fun j hj => ?_, fun j c hj hc => ?_, fun c hc => ?_⟩
            · cases hj
              exact ⟨l, hl, hsource, htarget, fun _ => hbetween⟩
            · cases hj
              cases hc
              rfl
            · cases hc
              refine ⟨l, hl, hsource, htarget, ⟨hfits, hjson⟩, fun _ => ?_⟩
              rw [hbetween]
              rfl
          · exact hpair
        · have hwritten : (some (PendingSend.mk m i (frame (encode json m)))).elim []
              PendingSend.written =
                (s'.sending n target).elim [] PendingSend.written ++ [] := by
            simp [hnone, PendingSend.written, hframe]
          rw [unanswered_setSending hwritten, ite_self, List.append_nil]
          exact hinv.ledger n' t
      · simp only [sendFrame, if_neg hfits]
        exact hinv

theorem Inv.proceed (h : s.Inv json) {call : PendingSend} {l : Link} (l' : Link)
    (call' : Option PendingSend) (more : List Message)
    (hcall : s.sending n target = some call) (hl : s.links[call.link]? = some l)
    (hlink : l'.Inv json) (hsource : l'.source = l.source)
    (htarget : l'.target = l.target) (hsent : l'.sent = l.sent ++ more)
    (hmore : call'.elim [] PendingSend.written = call.written ++ more)
    (hidle : (∀ c, call' = some c → c.left = []) →
      (s.connections n).get? target = none ∨ l'.part = [])
    (hwrites : ∀ c, call' = some c → c.link = call.link ∧ c.message = call.message ∧
      (c.left ≠ [] → l'.part ++ c.left = frame (encode json c.message))) :
    ((s.setLink call.link l').setSending n target call').Inv json := by
  obtain ⟨k, hk, hn, ht, hm, -⟩ := (h.pairs n target).writes call hcall
  obtain rfl := Option.some.inj (hl.symm.trans hk)
  have hlt := (List.getElem?_eq_some_iff.mp hl).1
  have hat : (s.links.set call.link l')[call.link]? = some l' :=
    List.getElem?_set_self hlt
  refine ⟨fun k hk => ?_, fun n' t => ?_, fun n' t => ?_⟩
  · rcases List.mem_or_eq_of_mem_set hk with hk | rfl
    · exact h.links k hk
    · exact hlink
  · have hpair := h.pairs n' t
    rw [sending_setSending]
    split
    · next heq =>
      obtain ⟨rfl, rfl⟩ := heq
      have hcurrent : ∀ i, (s.connections n').get? t = some i → call.link = i :=
        fun i hi => hpair.current i call hi hcall
      refine ⟨fun i hi => ?_, fun i c hi hc => ?_, fun c hc => ?_⟩
      · obtain rfl := hcurrent i hi
        refine ⟨l', hat, hsource.trans hn, htarget.trans ht, fun hdone => ?_⟩
        refine (hidle hdone).resolve_left fun hforgot => ?_
        rw [show (s.connections n').get? t = some call.link from hi] at hforgot
        cases hforgot
      · rw [(hwrites c hc).1]
        exact hcurrent i hi
      · obtain ⟨hc', hsame, hframe⟩ := hwrites c hc
        exact ⟨l', hc' ▸ hat, hsource.trans hn, htarget.trans ht, hsame ▸ hm, hframe⟩
    · next hother =>
      refine hpair.extend (extends_set hl hsource htarget fun hn' ht' => ?_)
      exact absurd ⟨hn'.symm.trans hn, ht'.symm.trans ht⟩ hother
  · have hwritten : call'.elim [] PendingSend.written =
        ((s.setLink call.link l').sending n target).elim [] PendingSend.written ++
          more := by
      rw [hmore]
      change _ = (s.sending n target).elim _ _ ++ _
      rw [hcall]
      rfl
    rw [unanswered_setSending hwritten, ← List.append_assoc]
    refine (flatMap_set_perm _ l'
      (if n = n' ∧ target = t then more else []) hl ?_).trans
        ((h.ledger n' t).append_right _)
    rw [hsource, htarget, hn, ht]
    split
    · exact hsent
    · rfl

theorem Inv.write (h : s.Inv json) {call : PendingSend} {l : Link} {k : Nat}
    (hcall : s.sending n target = some call)
    (hl : s.links[call.link]? = some l) (hpos : 0 < k) (hk : k ≤ call.left.length) :
    (s.write n target call l k).Inv json := by
  obtain ⟨l', hl', -, -, hm, hframe⟩ := (h.pairs n target).writes call hcall
  obtain rfl := Option.some.inj (hl.symm.trans hl')
  have hlink := h.links l (List.mem_of_getElem? hl)
  have hleft : call.left ≠ [] := List.length_pos_iff.mp (Nat.lt_of_lt_of_le hpos hk)
  unfold TransportSystem.write
  by_cases hpiece : k < call.left.length
  · have hmore : call.left.drop k ≠ [] := by
      rw [ne_eq, List.drop_eq_nil_iff]
      omega
    simp only [if_pos hpiece]
    refine h.proceed _ _ [] hcall hl (hlink.writePart hm (hframe hleft) hpiece) rfl rfl
      (List.append_nil _).symm ?_ (fun hdone => absurd (hdone _ rfl) hmore)
      fun c hc => ?_
    · simp [PendingSend.written, hmore, hleft]
    · cases hc
      refine ⟨rfl, rfl, fun _ => ?_⟩
      rw [List.append_assoc, List.take_append_drop]
      exact hframe hleft
  · have hall : call.left.take k = call.left :=
      List.take_of_length_le (Nat.not_lt.mp hpiece)
    have hnone : call.left.drop k = [] :=
      List.drop_eq_nil_of_le (Nat.not_lt.mp hpiece)
    simp only [if_neg hpiece, hall, hnone]
    refine h.proceed _ _ [call.message] hcall hl (hlink.writeLast hm (hframe hleft)) rfl
      rfl rfl ?_ (fun _ => .inr rfl) fun c hc => ?_
    · simp [PendingSend.written, hleft]
    · cases hc
      exact ⟨rfl, rfl, fun hne => absurd rfl hne⟩

theorem Inv.fail (h : s.Inv json) {call : PendingSend} {l : Link}
    (hcall : s.sending n target = some call) (hleft : call.left ≠ [])
    (hl : s.links[call.link]? = some l) : (s.fail n target call l).Inv json := by
  have hlink := h.links l (List.mem_of_getElem? hl)
  have hpop := h.pop n target
  refine Inv.recordFailed (hpop.proceed { l with isOpen := false } none [] hcall hl
    ⟨hlink.sendable, hlink.part, hlink.read, hlink.caught⟩ rfl rfl
    (List.append_nil _).symm ?_ (fun _ => .inl ?_) fun c hc => ?_) n target _
  · simp [PendingSend.written, hleft]
  · rw [get?_connections_setConnections, if_pos rfl, Dict.get?_pop, if_pos rfl]
  · cases hc

theorem Inv.returns (h : s.Inv json) {call : PendingSend}
    (hcall : s.sending n target = some call) (hleft : call.left = []) :
    (s.returns n target call).Inv json := by
  refine ⟨h.links, fun n' t => ?_, fun n' t => ?_⟩
  · change Pair json s.links ((s.connections n').get? t)
      ((s.setSending n target none).sending n' t) n' t
    have hpair := h.pairs n' t
    rw [sending_setSending]
    split
    · next heq =>
      obtain ⟨rfl, rfl⟩ := heq
      rw [hcall] at hpair
      refine ⟨fun i hi => ?_, fun i c _ hc => ?_, fun c hc => ?_⟩
      · obtain ⟨l, hl, hsource, htarget, hpart⟩ := hpair.kept i hi
        refine ⟨l, hl, hsource, htarget, fun _ => hpart fun c hc => ?_⟩
        cases hc
        exact hleft
      · cases hc
      · cases hc
    · exact hpair
  · refine (h.ledger n' t).trans ?_
    rw [TransportSystem.returns, succeeded_record]
    change (s.succeeded n' t ++ s.unanswered n' t).Perm (s.succeeded n' t ++
      (if n = n' ∧ target = t ∧ true then [call.message] else []) ++
      (s.setSending n target none).unanswered n' t)
    simp only [and_true, List.append_assoc, unanswered, sending_setSending]
    by_cases heq : n = n' ∧ target = t
    · obtain ⟨rfl, rfl⟩ := heq
      simp only [and_self, if_true, hcall, Option.elim_some, Option.elim_none,
        PendingSend.written, hleft, List.append_nil]
      exact List.Perm.append_left _ List.perm_append_comm
    · have hne : ¬ (n' = n ∧ t = target) := fun h => heq ⟨h.1.symm, h.2.symm⟩
      simp only [if_neg heq, if_neg hne, List.nil_append]
      exact .refl _

theorem Inv.close (h : s.Inv json) (i : Nat) : (s.close i).Inv json := by
  unfold TransportSystem.close
  split
  · exact h
  · next l hl =>
    have hlink := h.links l (List.mem_of_getElem? hl)
    exact h.setLink hl ⟨hlink.sendable, hlink.part, hlink.read, hlink.caught⟩ rfl rfl
      rfl rfl

theorem Inv.closeAll (h : s.Inv json) (n : NodeId) : (s.closeAll n).Inv json := by
  have hclose : ∀ (cached : List Nat) {s : TransportSystem}, s.Inv json →
      (cached.foldl TransportSystem.close s).Inv json := by
    intro cached
    induction cached with
    | nil => exact fun h => h
    | cons i rest ih => exact fun h => ih (h.close i)
  exact (hclose _ h).setConnections fun t => .inl rfl

theorem Inv.crash (h : s.Inv json) (n : NodeId) : (s.crash json n).Inv json := by
  refine ⟨fun l' hl' => ?_, fun m t => ?_, fun m t => ?_⟩
  · obtain ⟨l, hl, rfl⟩ := List.mem_map.mp hl'
    have hlink := h.links l hl
    unfold Link.crash
    split
    · have hstopped := hlink.receive .stopped rfl
      exact ⟨hstopped.sendable, hstopped.part, hstopped.read, hstopped.caught⟩
    · exact ⟨hlink.sendable, hlink.part, hlink.read, hlink.caught⟩
  · have hextends : Extends m t s.links (s.crash json n).links := by
      intro i l hi
      refine ⟨l.crash json n, ?_, rfl, rfl, fun _ _ => rfl⟩
      change (s.links.map _)[i]? = _
      rw [List.getElem?_map, hi]
      rfl
    have hpair := (h.pairs m t).extend hextends
    by_cases hm : m = n
    · subst hm
      have hcached : ((s.crash json m).connections m).get? t = none := by
        simp [TransportSystem.crash, TransportSystem.setConnections]
      have hnone : (s.crash json m).sending m t = none := by
        simp [TransportSystem.crash]
      rw [hcached, hnone]
      exact .idle m t
    · have hcached : ((s.crash json n).connections m).get? t =
          (s.connections m).get? t := by
        simp [TransportSystem.crash, TransportSystem.setConnections, hm]
      have hsame : (s.crash json n).sending m t = s.sending m t := by
        simp [TransportSystem.crash, hm]
      rw [hcached, hsame]
      exact hpair
  · have hcarried : carried (s.crash json n).links m t = carried s.links m t :=
      List.flatMap_map ..
    have hunanswered : (s.crash json n).unanswered m t = s.unanswered m t := by
      simp only [unanswered, TransportSystem.crash]
      by_cases hm : m = n
      · subst hm
        simp
      · simp [hm]
    rw [hcarried, hunanswered]
    exact h.ledger m t

/-- What `json` must do with the message of a call of `send`. -/
def Decodes (json : JsonLibrary) : TransportAction → Prop
  | .send _ _ m _ _ => json.loads (json.dumps m.toDict) = some m.toDict
  | _ => True

theorem Inv.step (h : s.Inv json) {a : TransportAction} {s' : TransportSystem}
    (ha : Decodes json a) (hstep : s.step json a = some s') : s'.Inv json := by
  cases a with
  | send n target m alive accepts =>
      simp only [TransportSystem.step] at hstep
      split at hstep
      · next hidle =>
        cases hstep
        exact h.send hidle ha alive accepts
      · cases hstep
  | write n target k =>
      simp only [TransportSystem.step] at hstep
      split at hstep
      · cases hstep
      · next call hcall =>
        split at hstep
        · cases hstep
        · next l hl =>
          split at hstep
          · next hk =>
            cases hstep
            exact h.write hcall hl hk.2.1 hk.2.2
          · cases hstep
  | fail n target =>
      simp only [TransportSystem.step] at hstep
      split at hstep
      · cases hstep
      · next call hcall =>
        split at hstep
        · cases hstep
        · next hleft =>
          obtain ⟨l, hl, rfl⟩ := Option.map_eq_some_iff.mp hstep
          exact h.fail hcall hleft hl
  | returns n target =>
      simp only [TransportSystem.step] at hstep
      split at hstep
      · cases hstep
      · next call hcall =>
        split at hstep
        · next hleft =>
          cases hstep
          exact h.returns hcall hleft
        · cases hstep
  | recv i k =>
      simp only [TransportSystem.step] at hstep
      split at hstep
      · cases hstep
      · next l hl =>
        split at hstep
        · next hk =>
          cases hstep
          have hlink := h.links l (List.mem_of_getElem? hl)
          exact h.setLink hl (hlink.recv k) rfl rfl rfl rfl
        · cases hstep
  | decode i =>
      simp only [TransportSystem.step] at hstep
      split at hstep
      · cases hstep
      · next l hl =>
        split at hstep
        · next hdecoding =>
          cases hstep
          have hlink := (h.links l (List.mem_of_getElem? hl)).decode hdecoding.2
          obtain ⟨hsource, htarget, hsent, hpart⟩ := Link.decode_sender json l
          exact h.setLink hl hlink hsource htarget hsent hpart
        · cases hstep
  | pass i event =>
      simp only [TransportSystem.step] at hstep
      split at hstep
      · cases hstep
      · next l hl =>
        split at hstep
        · next hevent =>
          cases hstep
          have hlink := h.links l (List.mem_of_getElem? hl)
          exact h.setLink hl (hlink.receive event hevent.2.2) rfl rfl rfl rfl
        · cases hstep
  | closeAll n =>
      cases hstep
      exact h.closeAll n
  | crash n =>
      cases hstep
      exact h.crash n

end Steps

private theorem sublist_flatMap {α β : Type*} {f g : α → List β} {items : List α}
    (h : ∀ a ∈ items, (f a).Sublist (g a)) :
    (items.flatMap f).Sublist (items.flatMap g) := by
  induction items with
  | nil => exact .slnil
  | cons a rest ih =>
      obtain ⟨ha, hrest⟩ := List.forall_mem_cons.mp h
      rw [List.flatMap_cons, List.flatMap_cons]
      exact ha.append (ih hrest)

/--
On every connection the server hands over the messages that the client wrote to it,
in order and each once, up to some point, and all of them once nothing is on its way
and the loop over what was read is done.

Over all connections between two nodes no message is handed over more often than
`send` wrote its last byte: those calls have returned `True`, are about to, or their
process ended in between.  So it is however the connections break and are made anew,
the calls fail within a frame and the nodes crash and restart.
-/
theorem run_handedOver (json : JsonLibrary) (actions : List TransportAction)
    (s : TransportSystem) (hjson : ∀ a ∈ actions, Decodes json a)
    (hrun : run (step json) new actions = some s) :
    (∀ l ∈ s.links, l.server.received <+: l.sent ∧
      (l.inFlight = [] → l.decoding = false → l.server.received = l.sent)) ∧
    ∀ n target, (s.handedOver n target).Subperm
      (s.succeeded n target ++ s.unanswered n target) := by
  have h : s.Inv json :=
    run_invariant (fun _ _ _ h ha hstep => h.step ha hstep) (inv_new json)
      (along_of_forall_mem hjson new) hrun
  refine ⟨fun l hl => (h.links l hl).received, fun n target => ?_⟩
  have hsublist : (s.handedOver n target).Sublist (carried s.links n target) := by
    refine sublist_flatMap fun l hl => ?_
    split
    · exact (h.links l hl).received.1.sublist
    · exact .slnil
  exact hsublist.subperm.trans (h.ledger n target).subperm

/-- The connection breaks inside the second frame, and the message is sent again over
a new one; node 0 crashes before this call of `send` returns. -/
def brokenFrame : List TransportAction :=
  [.send 0 1 Connection.ping true true, .write 0 1 30, .recv 0 20, .decode 0,
    .write 0 1 56, .returns 0 1, .send 0 1 Connection.pong true true, .write 0 1 3,
    .fail 0 1, .recv 0 66, .decode 0, .decode 0, .pass 0 .osError,
    .send 0 1 Connection.pong false true, .write 0 1 86, .crash 0, .recv 1 86,
    .decode 1]

theorem brokenFrame_handedOver :
    ∃ s, run (step Connection.pingJson) new brokenFrame = some s ∧
      (s.handedOver 0 1).length = 2 ∧ (s.succeeded 0 1).length = 1 ∧
      (s.handedOver 0 1).Subperm (s.succeeded 0 1 ++ s.unanswered 0 1) := by
  have hjson : ∀ a ∈ brokenFrame, Decodes Connection.pingJson a := by
    have hping : Connection.pingJson.dumps Connection.ping.toDict =
        Connection.pingText := rfl
    have hpong : Connection.pingJson.dumps Connection.pong.toDict =
        Connection.pongText := rfl
    have hdiffer : Connection.pongText ≠ Connection.pingText := by decide
    simp only [brokenFrame, List.forall_mem_cons, Decodes, hping, hpong]
    simp [Connection.pingJson, hdiffer]
  have hend : (run (step Connection.pingJson) new brokenFrame).map (fun s =>
      ((s.handedOver 0 1).length, (s.succeeded 0 1).length)) = some (2, 1) := by
    decide +kernel
  obtain ⟨s, hs, hlengths⟩ := Option.map_eq_some_iff.mp hend
  obtain ⟨hhanded, hreturned⟩ := Prod.mk.inj hlengths
  exact ⟨s, hs, hhanded, hreturned,
    (run_handedOver Connection.pingJson brokenFrame s hjson hs).2 0 1⟩

end TransportSystem

end DistributedMemory.Network
