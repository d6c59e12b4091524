import Mathlib

/-! # Packets between client and server

`net_serv.cc`, without compression.  The sender splits a packet at each `MAX_PACKET_LENGTH` bytes, numbers the
parts and collects them in a buffer; the receiver checks the numbers and joins the parts.  A `NET` does one of the
two at a time.  The main result is `packets_arrive`. -/

namespace MySQLServer.Net

open List

/-- `MAX_PACKET_LENGTH`. -/
def maxPacketLength : ℕ := 256 * 256 * 256 - 1

/-- The sender: what it has written to the socket, and the buffer up to `write_pos`. -/
structure Sender where
  sent : List ℕ
  buff : List ℕ
  maxPacket : ℕ
  pktNr : ℕ

def netFlush (n : Sender) : Sender := { n with sent := n.sent ++ n.buff, buff := [] }

def netWriteBuff (n : Sender) (packet : List ℕ) : Sender :=
  let left := n.maxPacket - n.buff.length
  if left < packet.length then
    -- a buffer that is in use is filled up and written
    let rest := if n.buff = [] then packet else packet.drop left
    let sent := if n.buff = [] then n.sent else n.sent ++ (n.buff ++ packet.take left)
    if n.maxPacket < rest.length then { n with sent := sent ++ rest, buff := [] }
    else { n with sent := sent, buff := rest }
  else { n with buff := n.buff ++ packet }

/-- `int3store` and the number of the packet. -/
def header (len nr : ℕ) : List ℕ := [len % 256, len / 256 % 256, len / 65536 % 256, nr % 256]

/-- A header, with what is written together with it. -/
def writeHeader (n : Sender) (len : ℕ) (extra : List ℕ) : Sender :=
  { netWriteBuff n (header len n.pktNr ++ extra) with pktNr := n.pktNr + 1 }

def myNetWrite (n : Sender) (packet : List ℕ) : Sender :=
  if h : maxPacketLength ≤ packet.length then
    myNetWrite (netWriteBuff (writeHeader n maxPacketLength []) (packet.take maxPacketLength))
      (packet.drop maxPacketLength)
  else netWriteBuff (writeHeader n packet.length []) packet
termination_by packet.length
decreasing_by
  rw [length_drop, maxPacketLength] at *
  omega

/-- The rounds after the first one are those of `my_net_write`: the header is empty then. -/
def netWriteCommand (n : Sender) (command : ℕ) (head packet : List ℕ) : Sender :=
  let length := packet.length + 1 + head.length
  let len := maxPacketLength - 1 - head.length
  netFlush <|
    if maxPacketLength ≤ length then
      myNetWrite (netWriteBuff (netWriteBuff (writeHeader n maxPacketLength [command]) head) (packet.take len))
        (packet.drop len)
    else netWriteBuff (netWriteBuff (writeHeader n length [command]) head) packet

/-- The receiver: the bytes to come, and the size of its buffer. -/
structure Receiver where
  input : List ℕ
  pktNr : ℕ
  maxPacket : ℕ
  maxPacketSize : ℕ

/-- One part, which is stored at `where_b`; `none` is `packet_error`. -/
def myRealRead (r : Receiver) (whereB : ℕ) : Option (List ℕ × Receiver) :=
  match r.input with
  | a :: b :: c :: nr :: s =>
    if nr ≠ r.pktNr % 256 then none
    else
      let len := a + 256 * b + 65536 * c
      let helping := len + whereB
      if len = 0 then some ([], { r with input := s, pktNr := r.pktNr + 1 })
      -- the buffer may have to grow
      else if r.maxPacket ≤ helping ∧ r.maxPacketSize ≤ helping ∨ s.length < len then none
      else some (s.take len, { r with
        input := s.drop len
        pktNr := r.pktNr + 1
        maxPacket := if r.maxPacket ≤ helping then (helping + 4095) / 4096 * 4096 else r.maxPacket })
  | _ => none

theorem myRealRead_lt {r r' : Receiver} {whereB : ℕ} {p : List ℕ} (h : myRealRead r whereB = some (p, r')) :
    r'.input.length < r.input.length := by
  unfold myRealRead at h
  grind

/-- The parts up to one that is shorter; `got` are those before. -/
def myNetRead (r : Receiver) (got : List ℕ) : Option (List ℕ × Receiver) :=
  match h : myRealRead r got.length with
  | none => none
  | some (p, r') =>
    if p.length = maxPacketLength then myNetRead r' (got ++ p) else some (got ++ p, r')
termination_by r.input.length
decreasing_by exact myRealRead_lt h

/-! ### One packet -/

variable {n n' m : Sender} {p q s : List ℕ}

/-- The bytes that were sent or are to be sent. -/
def Sender.stream (n : Sender) : List ℕ := n.sent ++ n.buff

/-- The buffer has room for what is in it. -/
def Sender.Fits (n : Sender) : Prop := n.buff.length ≤ n.maxPacket

/-- Flushing sends all bytes that are to be sent. -/
theorem netFlush_sends (n : Sender) : (netFlush n).sent = n.stream ∧ (netFlush n).buff = [] := ⟨rfl, rfl⟩

@[simp] theorem stream_netFlush (n : Sender) : (netFlush n).stream = n.stream := append_nil _

@[simp] theorem stream_netWriteBuff (n : Sender) (p : List ℕ) : (netWriteBuff n p).stream = n.stream ++ p := by
  unfold netWriteBuff Sender.stream
  dsimp only
  split_ifs <;> simp_all

theorem Sender.Fits.netWriteBuff (h : n.Fits) (p : List ℕ) : (netWriteBuff n p).Fits := by
  unfold Fits at *
  unfold Net.netWriteBuff
  dsimp only
  split_ifs <;> grind

theorem Sender.Fits.writeHeader (h : n.Fits) (len : ℕ) (p : List ℕ) : (writeHeader n len p).Fits :=
  h.netWriteBuff _

@[simp] theorem pktNr_netWriteBuff (n : Sender) (p : List ℕ) : (netWriteBuff n p).pktNr = n.pktNr := by
  unfold netWriteBuff
  dsimp only
  split_ifs <;> rfl

@[simp] theorem stream_writeHeader (n : Sender) (len : ℕ) (p : List ℕ) :
    (writeHeader n len p).stream = n.stream ++ (header len n.pktNr ++ p) := stream_netWriteBuff n _

@[simp] theorem pktNr_writeHeader (n : Sender) (len : ℕ) (p : List ℕ) : (writeHeader n len p).pktNr = n.pktNr + 1 := rfl

theorem myRealRead_part {k nr mp size : ℕ} (hp : p.length ≤ maxPacketLength) (hk : k + p.length < size) :
    ∃ mp', myRealRead ⟨header p.length nr ++ (p ++ s), nr, mp, size⟩ k = some (p, ⟨s, nr + 1, mp', size⟩) := by
  have hl : p.length % 256 + 256 * (p.length / 256 % 256) + 65536 * (p.length / 65536 % 256) = p.length := by
    rw [maxPacketLength] at hp
    omega
  rw [myRealRead]
  simp only [header, cons_append, nil_append, hl, ne_eq, not_true, if_false, take_left, drop_left]
  by_cases h0 : p.length = 0
  · obtain rfl := length_eq_zero_iff.mp h0
    exact ⟨mp, rfl⟩
  · rw [if_neg h0, if_neg (by rw [length_append]; omega)]
    exact ⟨_, rfl⟩

/-- Between `n` and `n'` the packet `p` was sent: the receiver reads it behind `got`. -/
def Sends (n : Sender) (p : List ℕ) (n' : Sender) : Prop :=
  (n.Fits → n'.Fits) ∧ ∃ w, n'.stream = n.stream ++ w ∧ ∀ got s mp size, (got ++ p).length < size →
    ∃ mp', myNetRead ⟨w ++ s, n.pktNr, mp, size⟩ got = some (got ++ p, ⟨s, n'.pktNr, mp', size⟩)

theorem Sends.last (hf : n.Fits → n'.Fits) (hs : n'.stream = n.stream ++ (header p.length n.pktNr ++ p)) (hn : n'.pktNr = n.pktNr + 1)
    (hp : p.length < maxPacketLength) : Sends n p n' := by
  refine ⟨hf, _, hs, fun got s mp size hk => ?_⟩
  rw [length_append] at hk
  obtain ⟨mp', hr⟩ := myRealRead_part hp.le hk
  refine ⟨mp', ?_⟩
  rw [append_assoc, hn, myNetRead, hr]
  exact if_neg hp.ne

theorem Sends.cons (hf : n.Fits → m.Fits) (hs : m.stream = n.stream ++ (header maxPacketLength n.pktNr ++ q)) (hn : m.pktNr = n.pktNr + 1)
    (hq : q.length = maxPacketLength) (h : Sends m p n') : Sends n (q ++ p) n' := by
  obtain ⟨hf', w, hw, hread⟩ := h
  refine ⟨fun h => hf' (hf h), _, by rw [hw, hs, append_assoc], fun got s mp size hk => ?_⟩
  rw [← append_assoc] at hk ⊢
  obtain ⟨mp', hr⟩ := myRealRead_part hq.le (show got.length + q.length < size by simp at hk; omega)
  obtain ⟨mp', hr'⟩ := hread (got ++ q) s mp' size hk
  refine ⟨mp', ?_⟩
  rw [append_assoc, append_assoc, ← hq, myNetRead, hr, ← hr', hn]
  exact if_pos hq

theorem Sends.flush (h : Sends n p n') : Sends n p (netFlush n') := by
  rw [Sends, stream_netFlush]
  exact ⟨fun _ => Nat.zero_le _, h.2⟩

theorem myNetWrite_sends (n : Sender) (p : List ℕ) : Sends n p (myNetWrite n p) := by
  fun_induction myNetWrite n p with
  | case1 n p h ih =>
    have hs := Sends.cons (fun h => (h.writeHeader _ _).netWriteBuff _) (by simp) (by simp) (by simp [h]) ih
      (n := n) (q := p.take maxPacketLength)
    rwa [take_append_drop] at hs
  | case2 n p h => exact .last (fun h => (h.writeHeader _ _).netWriteBuff _) (by simp) (by simp) (by omega)

theorem netWriteCommand_sends {c : ℕ} {head : List ℕ} (hh : head.length < maxPacketLength) :
    Sends n (c :: (head ++ p)) (netWriteCommand n c head p) := by
  have hlen : p.length + 1 + head.length = (c :: (head ++ p)).length := by
    simp
    omega
  rw [netWriteCommand, hlen]
  generalize hl : maxPacketLength - 1 - head.length = len
  refine .flush ?_
  split_ifs with h
  · have hs := (myNetWrite_sends _ (p.drop len)).cons (n := n) (q := c :: (head ++ p.take len))
      (m := netWriteBuff (netWriteBuff (writeHeader n maxPacketLength [c]) head) (p.take len))
      (fun h => ((h.writeHeader _ _).netWriteBuff _).netWriteBuff _) (by simp) (by simp) (by simp; omega)
    rwa [cons_append, append_assoc, take_append_drop] at hs
  · exact .last (fun h => ((h.writeHeader _ _).netWriteBuff _).netWriteBuff _) (by simp) (by simp) (by omega)

/-! ### Sequences of packets -/

/-- The sender is given the packets `ps`, as they are or as commands, and flushes its buffer at any time. -/
inductive Run : Sender → List (List ℕ) → Sender → Prop
  | nil (n : Sender) : Run n [] n
  | write {n n' : Sender} {p : List ℕ} {ps : List (List ℕ)} (h : Run (myNetWrite n p) ps n') : Run n (p :: ps) n'
  | command {n n' : Sender} {c : ℕ} {head p : List ℕ} {ps : List (List ℕ)} (hh : head.length < maxPacketLength)
      (h : Run (netWriteCommand n c head p) ps n') : Run n ((c :: (head ++ p)) :: ps) n'
  | flush {n n' : Sender} {ps : List (List ℕ)} (h : Run (netFlush n) ps n') : Run n ps n'

/-- `my_net_read` is called `k` times. -/
def readPackets (r : Receiver) : ℕ → Option (List (List ℕ) × Receiver)
  | 0 => some ([], r)
  | k + 1 => do
    let (p, r) ← myNetRead r []
    let (ps, r) ← readPackets r k
    some (p :: ps, r)

/-- Between `n` and `n'` the packets `ps` were sent, as `w`, and the receiver reads them.  A flush puts all of
`w` on the socket, and the buffer never holds more than it has room for. -/
def Arrive (n : Sender) (ps : List (List ℕ)) (n' : Sender) : Prop :=
  (n.Fits → n'.Fits) ∧ ∃ w, (netFlush n').buff = [] ∧ (netFlush n').sent = n.stream ++ w ∧ ∀ s mp size, (∀ p ∈ ps, p.length < size) →
    ∃ mp', readPackets ⟨w ++ s, n.pktNr, mp, size⟩ ps.length = some (ps, ⟨s, n'.pktNr, mp', size⟩)

theorem Sends.arrive {ps : List (List ℕ)} (h : Sends n p m) (hr : Arrive m ps n') : Arrive n (p :: ps) n' := by
  obtain ⟨hf, w, hw, hread⟩ := h
  obtain ⟨hf', w', hb, hw', hread'⟩ := hr
  refine ⟨fun h => hf' (hf h), w ++ w', hb, by rw [hw', hw, append_assoc], fun s mp size hps => ?_⟩
  obtain ⟨hp, hps⟩ := forall_mem_cons.mp hps
  obtain ⟨mp', h⟩ := hread [] (w' ++ s) mp size hp
  obtain ⟨mp', h'⟩ := hread' s mp' size hps
  refine ⟨mp', ?_⟩
  rw [length_cons, readPackets, append_assoc, h]
  simp [h']

/-- **Packets arrive**: whatever packets are sent, of any length and with any state of the buffer, they are on
the socket after a flush, and the receiver gets them byte for byte and in order, and nothing of what follows. -/
theorem packets_arrive {ps : List (List ℕ)} (h : Run n ps n') : Arrive n ps n' := by
  induction h with
  | nil n =>
    obtain ⟨hs, hb⟩ := netFlush_sends n
    exact ⟨id, [], hb, hs.trans (append_nil _).symm, fun s mp size _ => ⟨mp, rfl⟩⟩
  | write h ih => exact (myNetWrite_sends _ _).arrive ih
  | command hh h ih => exact (netWriteCommand_sends hh).arrive ih
  | flush h ih =>
    rw [Arrive, stream_netFlush] at ih
    exact ⟨fun _ => ih.1 (Nat.zero_le _), ih.2⟩

theorem packets_arrive_two : Arrive ⟨[], [], 8, 255⟩ [[1], [3, 7, 7]]
      (netFlush (netWriteCommand (myNetWrite ⟨[], [], 8, 255⟩ [1]) 3 [7] [7])) :=
  packets_arrive (.write (.command (show [7].length < _ by decide) (.flush (.nil _))))

end MySQLServer.Net
