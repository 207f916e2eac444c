import GtuOs.Console.PrintInteger
import GtuOs.Drivers.AmdAm79c973
import GtuOs.Lib.Fuel
import GtuOs.Lib.Overlaps
import GtuOs.Lib.Ring
import GtuOs.Lib.System

/-!
# Receiving

The receiving side of `amd_am79c973.cpp`: the descriptors set up by the constructor, `Receive` and
`HandleInterrupt`. The card fills the descriptors in turn, as long as they are its own, and gives them to the
driver by clearing the bit `own` of their flags; the driver takes them in turn, prints the frames and gives them
back. In every interleaving of the two, no frame is taken twice or passed over (`Inv.fifo`).

As `recvBuffers` is declared like `sendBuffers`, the buffers overlap. The frames that have not been taken yet
are intact exactly if they agree where they overlap (`received_in_order`), and what is printed is the
frames if each one that comes agrees with those (`printed_of_agree`).
-/

namespace GtuOs.AmdAm79c973

/-- The members used by `Receive`, with the address of `recvBuffers` and the memory. -/
structure Receiver where
  mem : Memory
  recvBuffers : UInt32
  recvBufferDescr : Fin 8 → BufferDescriptor
  currentRecvBuffer : UInt8

/-- The bit of the flags by which a descriptor is the card's. -/
def own : UInt32 := 0x80000000

/-- The card may not touch the descriptor. -/
def BufferDescriptor.IsDrivers (descr : BufferDescriptor) : Prop := descr.flags &&& own = 0

instance (descr : BufferDescriptor) : Decidable descr.IsDrivers :=
  inferInstanceAs (Decidable (_ = _))

/-- The number of bytes that are printed, without the checksum. -/
def frameSize (flags : UInt32) : UInt32 :=
  let size := flags &&& 0xFFF
  if size > 64 then size - 4 else size

/-- Bytes in hexadecimal, as `Receive` prints them. -/
def hexBytes (buffer : ℕ → UInt8) (n : ℕ) : List UInt8 :=
  (List.range n).flatMap fun i => hexByte (buffer i) ++ [space]

/-- What `Receive` prints of a buffer with these flags: nothing if there is an error, or if it is not a whole frame. -/
def textOf (flags : UInt32) (buffer : ℕ → UInt8) : List UInt8 :=
  if flags &&& 0x40000000 = 0 ∧ flags &&& 0x03000000 = 0x03000000 then hexBytes buffer (frameSize flags).toNat else []

namespace Receiver

/-- The constructor, as far as it sets up the ring. It leaves the members `avail` as they are. -/
def construct (mem : Memory) (recvBuffers : UInt32) (avail : Fin 8 → UInt32) : Receiver where
  mem := mem
  recvBuffers := recvBuffers
  recvBufferDescr i := ⟨slot recvBuffers i, 0xF7FF ||| 0x80000000, 0, avail i⟩
  currentRecvBuffer := 0

/-- `recvBufferDescr[currentRecvBuffer]`. -/
def descr (r : Receiver) : BufferDescriptor := r.recvBufferDescr (ringIndex r.currentRecvBuffer.toNat)

/-- What an iteration of the loop of `Receive` prints. -/
def text (r : Receiver) : List UInt8 := textOf r.descr.flags fun i => r.mem (r.descr.address.toNat + i)

/-- An iteration of the loop of `Receive`. -/
def iteration (r : Receiver) : Receiver :=
  { r with
    recvBufferDescr := Function.update r.recvBufferDescr (ringIndex r.currentRecvBuffer.toNat)
      { r.descr with flags2 := 0, flags := 0x8000F7FF }
    currentRecvBuffer := (r.currentRecvBuffer + 1) % 8 }

/-- The loop of `Receive`, with what it prints. -/
def loop (r : Receiver) : ℕ → Option (Receiver × List UInt8)
  | 0 => none
  | n + 1 =>
    if r.descr.IsDrivers then do
      let (r', text') ← r.iteration.loop n
      some (r', r.text ++ text')
    else some (r, [])

/-- `Receive`. -/
def receive (r : Receiver) (fuel : ℕ) : Option (Receiver × List UInt8) := do
  let (r, text) ← r.loop fuel
  some (r, ascii "AMD am79c973 DATA RECEIVED\n" ++ text)

/-- The message of `HandleInterrupt` for a bit of the status. -/
def message (temp : UInt32) (bit : UInt32) (text : String) : List UInt8 :=
  if temp &&& bit = bit then ascii text else []

/-- What `HandleInterrupt` prints. -/
def report (temp : UInt32) (received : List UInt8) : List UInt8 :=
  ascii "INTERRUPT FROM AMD am79c973\n" ++
    message temp 0x8000 "AMD am79c973 ERROR\n" ++
    message temp 0x2000 "AMD am79c973 COLLISION ERROR\n" ++
    message temp 0x1000 "AMD am79c973 MISSED FRAME\n" ++
    message temp 0x0800 "AMD am79c973 MEMORY ERROR\n" ++
    received ++
    message temp 0x0200 "AMD am79c973 DATA SENT\n" ++
    message temp 0x0100 "AMD am79c973 INIT DONE\n"

/-- The status has the bit for frames. -/
def hasFrames (status : UInt16) : Prop := status.toUInt32 &&& 0x0400 = 0x0400

instance (status : UInt16) : Decidable (hasFrames status) := inferInstanceAs (Decidable (_ = _))

/-- `HandleInterrupt`, for the status read from the port, with what is printed and what is written to the ports. -/
def handleInterrupt (r : Receiver) (status : UInt16) (fuel : ℕ) :
    Option (Receiver × List UInt8 × List (Port × UInt16)) := do
  let (r, received) ← if hasFrames status then r.receive fuel else some (r, [])
  some (r, report status.toUInt32 received, [(.registerAddress, 0), (.registerAddress, 0), (.registerData, status)])

end Receiver

/-! ## The card and the driver -/

/-- A frame that comes in, with what the card puts into the descriptor. -/
structure Frame where
  bytes : List UInt8
  flags : UInt32
  flags2 : UInt32

namespace Frame

variable (f : Frame)

def byte (i : ℕ) : UInt8 := f.bytes.getD i 0

/-- What is printed of a frame. -/
def text : List UInt8 := textOf f.flags f.byte

end Frame

/-- The driver, the index of the card's next descriptor, and what has been printed. -/
structure Link where
  receiver : Receiver
  next : ℕ
  printed : List UInt8

inductive LinkEvent
  | frame (f : Frame)
  | iteration

namespace Link

/-- The descriptor that the card fills next. -/
def descr (l : Link) : BufferDescriptor := l.receiver.recvBufferDescr (ringIndex l.next)

/-- The card puts a frame into the ring. -/
def deliver (l : Link) (f : Frame) : Link :=
  { l with
    receiver :=
      { l.receiver with
        mem := l.receiver.mem.store l.descr.address.toNat f.bytes.length f.byte
        recvBufferDescr := Function.update l.receiver.recvBufferDescr (ringIndex l.next)
          { l.descr with flags := f.flags, flags2 := f.flags2 } }
    next := l.next + 1 }

/-- The driver takes a frame out of the ring. -/
def take (l : Link) : Link :=
  { l with receiver := l.receiver.iteration, printed := l.printed ++ l.receiver.text }

/-- The card fills a descriptor that is its own, and gives it to the driver. -/
def step (l : Link) : LinkEvent → Link → Prop
  | .frame f, l' => ¬l.descr.IsDrivers ∧ f.flags &&& own = 0 ∧ l' = l.deliver f
  | .iteration, l' => l.receiver.descr.IsDrivers ∧ l' = l.take

/-- The system of the card and the driver, from a memory and the members `avail` as they are. -/
def system : System Link LinkEvent where
  init l := ∃ mem recvBuffers avail, l = ⟨.construct mem recvBuffers avail, 0, []⟩
  step := step

/-- The frames that have come in, and the flags of those that have been taken. -/
structure Traffic where
  delivered : List Frame
  taken : List UInt32

def traffic : Monitor Link LinkEvent Traffic where
  init _ t := t = ⟨[], []⟩
  next t l
    | .frame f, _ => { t with delivered := t.delivered ++ [f] }
    | .iteration, _ => { t with taken := t.taken ++ [l.receiver.descr.flags] }

end Link

namespace Link

/-- The frames that are in the ring. -/
def Traffic.pending (t : Traffic) : List Frame := t.delivered.drop t.taken.length

/-- Frames in the buffers from the descriptor `k` on. -/
def buffers (recvBuffers : UInt32) (k : ℕ) : List Frame → List (ℕ × List UInt8)
  | [] => []
  | f :: fs => ((slot recvBuffers (ringIndex k)).toNat, f.bytes) :: buffers recvBuffers (k + 1) fs

/-- The buffers of the frames that are in the ring. -/
def Traffic.buffers (t : Traffic) (recvBuffers : UInt32) : List (ℕ × List UInt8) :=
  Link.buffers recvBuffers t.taken.length t.pending

/-- The flags of the descriptors that are the driver's. -/
def slots (l : Link) (i : ℕ) : Option UInt32 :=
  if (l.receiver.recvBufferDescr (ringIndex i)).IsDrivers then
    some (l.receiver.recvBufferDescr (ringIndex i)).flags
  else none

/-- The ring holds the frames that have come in and have not been taken, in order. -/
structure Inv (l : Link) (t : Traffic) : Prop where
  address : ∀ i, (l.receiver.recvBufferDescr i).address = slot l.receiver.recvBuffers i
  current : l.receiver.currentRecvBuffer.toNat = t.taken.length % 8
  next : l.next = t.delivered.length
  fifo : t.delivered.map Frame.flags = t.taken ++ t.pending.map Frame.flags
  ring : RingHolds l.slots 8 t.taken.length (t.pending.map Frame.flags)
  stored : ∃ m : Memory, l.receiver.mem = m.storeAll (t.buffers l.receiver.recvBuffers)

variable {l l' : Link} {t t' : Traffic} {f : Frame} {fs : List Frame} {b : UInt32} {j k : ℕ}

theorem ringIndex_congr (h : j % 8 = k % 8) : ringIndex j = ringIndex k := Fin.ext h

theorem buffers_append : buffers b k (fs ++ [f]) =
    buffers b k fs ++ [((slot b (ringIndex (k + fs.length))).toNat, f.bytes)] := by
  induction fs generalizing k with
  | nil => rfl
  | cons g fs ih =>
    rw [List.cons_append, buffers, ih, buffers, List.cons_append, List.length_cons, Nat.add_assoc, Nat.add_comm 1]

namespace Inv

theorem length_eq (h : l.Inv t) : t.delivered.length = t.taken.length + t.pending.length := by
  have hlen := congrArg List.length h.fifo
  simpa using hlen

/-- The driver's next descriptor. -/
theorem descr_eq (h : l.Inv t) : l.receiver.descr = l.receiver.recvBufferDescr (ringIndex t.taken.length) := by
  rw [Receiver.descr, h.current, ringIndex_congr (Nat.mod_mod _ _)]

/-- The driver takes the first one of the frames. -/
theorem exists_cons (h : l.Inv t) (hdrivers : l.receiver.descr.IsDrivers) :
    ∃ f fs, t.pending = f :: fs ∧ l.receiver.descr.flags = f.flags := by
  have hhead := h.ring.head_eq (by decide)
  have hslot : l.slots (t.taken.length % 8) = some l.receiver.descr.flags := by
    rw [slots, ringIndex_congr (Nat.mod_mod _ _), ← h.descr_eq, if_pos hdrivers]
  rw [hslot, List.head?_map] at hhead
  cases hpending : t.pending with
  | nil =>
    rw [hpending] at hhead
    cases hhead
  | cons f fs =>
    rw [hpending] at hhead
    exact ⟨f, fs, rfl, Option.some.inj hhead⟩

/-- There is room for the frame that the card puts into the ring. -/
theorem length_lt (h : l.Inv t) (hcard : ¬l.descr.IsDrivers) : t.pending.length < 8 := by
  have hslot : l.slots ((t.taken.length + (t.pending.map Frame.flags).length) % 8) = none := by
    rw [slots, ringIndex_congr (Nat.mod_mod _ _), List.length_map, ← h.length_eq, ← h.next]
    exact if_neg hcard
  have hlt := (h.ring.tail_eq_none_iff (by decide)).1 hslot
  rwa [List.length_map] at hlt

end Inv

theorem inv_init (h : system.init l) (ht : traffic.init l t) : l.Inv t := by
  obtain ⟨mem, recvBuffers, avail, rfl⟩ := h
  obtain rfl : t = ⟨[], []⟩ := ht
  have hcard : ¬(0xF7FF ||| 0x80000000 : UInt32) &&& own = 0 := by decide
  exact ⟨fun _ => rfl, rfl, rfl, rfl, .nil (fun _ _ => if_neg hcard) (by decide), ⟨mem, rfl⟩⟩

theorem slots_of_eq (h : l'.receiver.recvBufferDescr (ringIndex k) = l.receiver.recvBufferDescr (ringIndex k)) :
    l'.slots k = l.slots k := by
  rw [slots, slots, h]

/-- Numbers below eight are indices. -/
theorem ringIndex_ne {i : ℕ} (hi : i < 8) (hne : i ≠ k % 8) : ringIndex i ≠ ringIndex k := fun h => by
  have hval : i % 8 = k % 8 := congrArg Fin.val h
  exact hne ((Nat.mod_eq_of_lt hi).symm.trans hval)

/-- A frame comes in. -/
theorem Inv.deliver (h : l.Inv t) (hcard : ¬l.descr.IsDrivers) (hf : f.flags &&& own = 0) :
    (l.deliver f).Inv { t with delivered := t.delivered ++ [f] } := by
  have hlt := h.length_lt hcard
  have hpending : ({ t with delivered := t.delivered ++ [f] } : Traffic).pending = t.pending ++ [f] :=
    List.drop_append_of_le_length (h.length_eq ▸ Nat.le_add_right _ _)
  have hself : (l.deliver f).receiver.recvBufferDescr (ringIndex l.next) =
      { l.descr with flags := f.flags, flags2 := f.flags2 } := Function.update_self _ _ _
  have hne : ∀ i, i ≠ ringIndex l.next →
      (l.deliver f).receiver.recvBufferDescr i = l.receiver.recvBufferDescr i :=
    fun i hi => Function.update_of_ne hi _ _
  refine ⟨fun i => ?_, h.current, ?_, ?_, ?_, ?_⟩
  · by_cases hi : i = ringIndex l.next
    · rw [hi, hself]
      exact h.address _
    · rw [hne i hi]
      exact h.address i
  · rw [List.length_append, List.length_singleton, ← h.next]
    rfl
  · rw [hpending, List.map_append, List.map_append, h.fifo, List.append_assoc]
  · rw [hpending, List.map_append]
    have htail : l.next = t.taken.length + (t.pending.map Frame.flags).length := by
      rw [List.length_map, ← h.length_eq, h.next]
    refine h.ring.push (by rwa [List.length_map]) ?_ fun i hi hni => ?_
    · rw [← htail, slots, ringIndex_congr (Nat.mod_mod _ _), hself]
      exact if_pos hf
    · rw [← htail] at hni
      exact slots_of_eq (hne _ (ringIndex_ne hi hni))
  · obtain ⟨m, hm⟩ := h.stored
    refine ⟨m, ?_⟩
    have haddr : l.descr.address = slot l.receiver.recvBuffers (ringIndex (t.taken.length + t.pending.length)) := by
      rw [← h.length_eq, ← h.next]
      exact h.address _
    rw [Traffic.buffers, hpending, buffers_append, Memory.storeAll_append]
    change l.receiver.mem.store l.descr.address.toNat f.bytes.length f.byte = _
    rw [hm, haddr]
    rfl

theorem pending_take {flags : UInt32} (h : t.pending = f :: fs) :
    ({ t with taken := t.taken ++ [flags] } : Traffic).pending = fs := by
  have hlen : (t.taken ++ [flags]).length = t.taken.length + 1 := List.length_append
  have hdrop : t.delivered.drop (t.taken.length + 1) = t.pending.tail := by rw [Traffic.pending, List.tail_drop]
  rw [Traffic.pending, hlen, hdrop, h]
  rfl

/-- A frame is taken. -/
theorem Inv.take (h : l.Inv t) (hdrivers : l.receiver.descr.IsDrivers) :
    l.take.Inv { t with taken := t.taken ++ [l.receiver.descr.flags] } := by
  obtain ⟨f, fs, hcons, hflags⟩ := h.exists_cons hdrivers
  have hlen : (t.taken ++ [l.receiver.descr.flags]).length = t.taken.length + 1 := List.length_append
  have hpending : ({ t with taken := t.taken ++ [l.receiver.descr.flags] } : Traffic).pending = fs := pending_take hcons
  have hindex : ringIndex l.receiver.currentRecvBuffer.toNat = ringIndex t.taken.length :=
    ringIndex_congr (by rw [h.current, Nat.mod_mod])
  have hself : l.take.receiver.recvBufferDescr (ringIndex t.taken.length) =
      { l.receiver.descr with flags2 := 0, flags := 0x8000F7FF } := by
    rw [← hindex]
    exact Function.update_self _ _ _
  have hne : ∀ i, i ≠ ringIndex t.taken.length →
      l.take.receiver.recvBufferDescr i = l.receiver.recvBufferDescr i := fun i hi => by
    rw [← hindex] at hi
    exact Function.update_of_ne hi _ _
  refine ⟨fun i => ?_, ?_, h.next, ?_, ?_, ?_⟩
  · by_cases hi : i = ringIndex t.taken.length
    · rw [hi, hself]
      exact h.descr_eq ▸ h.address _
    · rw [hne i hi]
      exact h.address i
  · change ((l.receiver.currentRecvBuffer + 1) % 8).toNat = _
    rw [UInt8.toNat_mod, UInt8.toNat_add, h.current, hlen]
    change (_ % 8 + 1) % 256 % 8 = _
    omega
  · rw [hpending, h.fifo, hcons, hflags, List.map_cons, List.append_assoc]
    rfl
  · have hring := h.ring
    rw [hcons, List.map_cons] at hring
    rw [hpending, hlen]
    refine hring.pop ?_ fun i hi hni => slots_of_eq (hne _ (ringIndex_ne hi hni))
    rw [slots, ringIndex_congr (Nat.mod_mod _ _), hself]
    exact if_neg (by decide : ¬(0x8000F7FF : UInt32) &&& own = 0)
  · obtain ⟨m, hm⟩ := h.stored
    refine ⟨m.storeBlock ((slot l.receiver.recvBuffers (ringIndex t.taken.length)).toNat, f.bytes), ?_⟩
    rw [Traffic.buffers, hcons] at hm
    rw [Traffic.buffers, hpending, hlen]
    exact hm

theorem inv_of_reachable {p : Link × Traffic} (h : (system.monitored traffic).Reachable p) : p.1.Inv p.2 :=
  h.invariant (P := fun p => p.1.Inv p.2) (fun _ h => inv_init h.1 h.2) fun p i p' _ hinv hstep => by
    obtain ⟨hstep, ht⟩ := hstep
    rw [ht]
    cases i with
    | frame f =>
      obtain ⟨hcard, hf, hl⟩ := hstep
      rw [hl]
      exact hinv.deliver hcard hf
    | iteration =>
      obtain ⟨hdrivers, hl⟩ := hstep
      rw [hl]
      exact hinv.take hdrivers

/-! ## The loop of the driver -/

theorem Inv.isDrivers (h : l.Inv t) (hcons : t.pending = f :: fs) : l.receiver.descr.IsDrivers := by
  have hhead := h.ring.head_eq (by decide)
  rw [hcons, slots, ringIndex_congr (Nat.mod_mod _ _), ← h.descr_eq] at hhead
  by_contra hcard
  rw [if_neg hcard] at hhead
  cases hhead

/-- The loop takes all the frames that are in the ring. -/
theorem Inv.loop (h : l.Inv t) (ok : Link × Traffic → LinkEvent → Prop) (hok : ∀ p, ok p .iteration) :
    ∃ l' t', ((system.monitored traffic).restrict ok).Steps (l, t) (l', t') ∧ t'.pending = [] ∧
      t'.delivered = t.delivered ∧ ∃ text, l'.printed = l.printed ++ text ∧
        Settles (fun n => l.receiver.loop n) (some (l'.receiver, text)) := by
  generalize hfs : t.pending = fs
  induction fs generalizing l t with
  | nil =>
    have hcard : ¬l.receiver.descr.IsDrivers := fun hdrivers => by
      obtain ⟨f, fs, hcons, -⟩ := h.exists_cons hdrivers
      rw [hfs] at hcons
      cases hcons
    refine ⟨l, t, .refl, hfs, rfl, [], (List.append_nil _).symm, 1, fun n hn => ?_⟩
    obtain ⟨n, rfl⟩ := Nat.exists_eq_add_of_le' hn
    exact if_neg hcard
  | cons f fs ih =>
    have hdrivers := h.isDrivers hfs
    obtain ⟨l', t', hsteps, hnil, hdelivered, text, hprinted, hloop⟩ := ih (h.take hdrivers) (pending_take hfs)
    have hstep : ((system.monitored traffic).restrict ok).step (l, t) .iteration
        (l.take, { t with taken := t.taken ++ [l.receiver.descr.flags] }) := ⟨hok _, ⟨hdrivers, rfl⟩, rfl⟩
    refine ⟨l', t', (System.Steps.refl.step hstep).trans hsteps, hnil, hdelivered, l.receiver.text ++ text, ?_, ?_⟩
    · rw [hprinted, ← List.append_assoc]
      rfl
    · obtain ⟨n₀, hn⟩ := hloop
      refine Settles.succ (g := fun n => do
        let (r', text') ← l.receiver.iteration.loop n
        some (r', l.receiver.text ++ text')) ⟨n₀, fun n hle => ?_⟩ fun n => if_pos hdrivers
      have hiter : l.receiver.iteration.loop n = some (l'.receiver, text) := hn n hle
      dsimp only
      rw [hiter]
      rfl

/-- What the handler does with the frames follows from what the loop does. -/
theorem handleInterrupt_settles {r r' : Receiver} {text : List UInt8} {status : UInt16}
    (hstatus : Receiver.hasFrames status) (h : Settles (fun n => r.loop n) (some (r', text))) :
    Settles (fun n => r.handleInterrupt status n)
      (some (r', Receiver.report status.toUInt32 (ascii "AMD am79c973 DATA RECEIVED\n" ++ text),
        [(.registerAddress, 0), (.registerAddress, 0), (.registerData, status)])) := by
  obtain ⟨n₀, hn⟩ := h
  refine ⟨n₀, fun n hle => ?_⟩
  have hloop : r.loop n = some (r', text) := hn n hle
  dsimp only
  rw [Receiver.handleInterrupt, if_pos hstatus, Receiver.receive, hloop]
  rfl

/-- **The ring**, in every interleaving of the card and the driver. The frames are taken in order, each one once,
    and at most eight are in the ring; the driver owns the descriptors of those, and no others. They are intact
    exactly if they agree where their buffers overlap. The handler ends, with none left. -/
theorem received_in_order (h : (system.monitored traffic).Reachable (l, t)) :
    t.delivered.map Frame.flags = t.taken ++ t.pending.map Frame.flags ∧ t.pending.length ≤ 8 ∧
      (∀ j < 8, (l.receiver.recvBufferDescr (ringIndex (t.taken.length + j))).IsDrivers ↔ j < t.pending.length) ∧
      ((∀ b ∈ t.buffers l.receiver.recvBuffers, l.receiver.mem.Holds b) ↔
        ∀ b ∈ t.buffers l.receiver.recvBuffers, ∀ b' ∈ t.buffers l.receiver.recvBuffers, Memory.Agree b b') ∧
      ∀ status, Receiver.hasFrames status → ∃ l' t' text ports,
        Settles (fun n => l.receiver.handleInterrupt status n) (some (l'.receiver, text, ports)) ∧
          (system.monitored traffic).Steps (l, t) (l', t') ∧ t'.delivered = t.delivered ∧ t'.pending = [] := by
  have hinv := inv_of_reachable h
  have hlen := hinv.ring.length_le
  rw [List.length_map] at hlen
  refine ⟨hinv.fifo, hlen, fun j hj => ?_, ?_, fun status hstatus => ?_⟩
  · have hget := hinv.ring.get j hj
    rw [slots, ringIndex_congr (Nat.mod_mod _ _), List.getElem?_map] at hget
    split_ifs at hget with hdrivers
    · obtain ⟨f, hf, -⟩ := Option.map_eq_some_iff.1 hget.symm
      exact ⟨fun _ => (List.getElem?_eq_some_iff.1 hf).1, fun _ => hdrivers⟩
    · have hnone := Option.map_eq_none_iff.1 hget.symm
      exact ⟨fun hself => absurd hself hdrivers, fun hlt => absurd hlt (List.getElem?_eq_none_iff.1 hnone).not_gt⟩
  · obtain ⟨m, hm⟩ := hinv.stored
    rw [hm]
    exact Memory.storeAll_holds_iff
  · obtain ⟨l', t', hsteps, hnil, hdelivered, text, -, hloop⟩ := hinv.loop (fun _ _ => True) fun _ => trivial
    exact ⟨l', t', _, _, handleInterrupt_settles hstatus hloop, hsteps.of_restrict, hdelivered, hnil⟩

/-- A frame of sixty bytes. -/
def shortFrame (v : UInt8) : Frame := ⟨.replicate 60 v, 0x0300003C, 0⟩

/-- The start. -/
def started : Link := ⟨.construct (fun _ => 0) 4096 fun _ => 0, 0, []⟩

theorem started_reachable (ok : Link × Traffic → LinkEvent → Prop) :
    ((system.monitored traffic).restrict ok).Reachable (started, ⟨[], []⟩) := .init ⟨⟨_, _, _, rfl⟩, rfl⟩

/-- The second frame overwrites the first one. -/
theorem received_in_order_short :
    ¬∀ b ∈ Traffic.buffers ⟨[shortFrame 1, shortFrame 2], []⟩ 4096,
      ((started.deliver (shortFrame 1)).deliver (shortFrame 2)).receiver.mem.Holds b := by
  have h₁ : (system.monitored traffic).Reachable (started.deliver (shortFrame 1), ⟨[shortFrame 1], []⟩) :=
    (started_reachable fun _ _ => True).of_restrict.step (i := .frame (shortFrame 1))
      ⟨⟨by decide, by decide, rfl⟩, rfl⟩
  have h₂ : (system.monitored traffic).Reachable ((started.deliver (shortFrame 1)).deliver (shortFrame 2),
      ⟨[shortFrame 1, shortFrame 2], []⟩) :=
    h₁.step (i := .frame (shortFrame 2)) ⟨⟨by decide, by decide, rfl⟩, rfl⟩
  intro hholds
  have hagree := (received_in_order h₂).2.2.2.1.1 hholds (4096, (shortFrame 1).bytes) (by decide +kernel)
    (4112, (shortFrame 2).bytes) (by decide +kernel) 16 (by decide) 0 (by decide) rfl
  exact absurd hagree (by decide)

/-! ## What is printed -/

/-- Each frame that comes in agrees with those in the ring, and the card declares no more bytes than it has stored. -/
def Agrees (p : Link × Traffic) : LinkEvent → Prop
  | .frame f => (frameSize f.flags).toNat ≤ f.bytes.length ∧
      ∀ b ∈ p.2.buffers p.1.receiver.recvBuffers, Memory.Agree b (p.1.descr.address.toNat, f.bytes)
  | .iteration => True

/-- The frames in the ring are intact, and those taken have been printed. -/
structure Prints (l : Link) (t : Traffic) : Prop where
  holds : ∀ b ∈ t.buffers l.receiver.recvBuffers, l.receiver.mem.Holds b
  size : ∀ f ∈ t.pending, (frameSize f.flags).toNat ≤ f.bytes.length
  printed : l.printed = (t.delivered.take t.taken.length).flatMap Frame.text

theorem textOf_congr {flags : UInt32} {buffer buffer' : ℕ → UInt8}
    (h : ∀ i < (frameSize flags).toNat, buffer i = buffer' i) : textOf flags buffer = textOf flags buffer' := by
  rw [textOf, textOf, hexBytes, hexBytes]
  congr 1
  exact List.flatMap_congr fun i hi => by rw [h i (List.mem_range.1 hi)]

theorem Prints.deliver (h : l.Prints t) (hinv : l.Inv t) (hagrees : Agrees (l, t) (.frame f)) :
    (l.deliver f).Prints { t with delivered := t.delivered ++ [f] } := by
  have hle : t.taken.length ≤ t.delivered.length := hinv.length_eq ▸ Nat.le_add_right _ _
  have hpending : ({ t with delivered := t.delivered ++ [f] } : Traffic).pending = t.pending ++ [f] :=
    List.drop_append_of_le_length hle
  have haddr : l.descr.address = slot l.receiver.recvBuffers (ringIndex (t.taken.length + t.pending.length)) := by
    rw [← hinv.length_eq, ← hinv.next]
    exact hinv.address _
  have hbuffers : ({ t with delivered := t.delivered ++ [f] } : Traffic).buffers l.receiver.recvBuffers =
      t.buffers l.receiver.recvBuffers ++ [(l.descr.address.toNat, f.bytes)] := by
    rw [Traffic.buffers, hpending, buffers_append, haddr]
    rfl
  obtain ⟨hsize, hagree⟩ := hagrees
  refine ⟨fun b hb => ?_, fun g hg => ?_, ?_⟩
  · change b ∈ ({ t with delivered := t.delivered ++ [f] } : Traffic).buffers l.receiver.recvBuffers at hb
    rw [hbuffers] at hb
    rcases List.mem_append.1 hb with hb | hb
    · exact (h.holds b hb).storeBlock (hagree b hb)
    · obtain rfl := List.mem_singleton.1 hb
      exact Memory.holds_storeBlock
  · rw [hpending] at hg
    rcases List.mem_append.1 hg with hg | hg
    · exact h.size g hg
    · obtain rfl := List.mem_singleton.1 hg
      exact hsize
  · change l.printed = ((t.delivered ++ [f]).take t.taken.length).flatMap Frame.text
    rw [List.take_append_of_le_length hle]
    exact h.printed

theorem Prints.take (h : l.Prints t) (hinv : l.Inv t) (hdrivers : l.receiver.descr.IsDrivers) :
    l.take.Prints { t with taken := t.taken ++ [l.receiver.descr.flags] } := by
  obtain ⟨f, fs, hcons, hflags⟩ := hinv.exists_cons hdrivers
  have hlen : (t.taken ++ [l.receiver.descr.flags]).length = t.taken.length + 1 := List.length_append
  have hpending : ({ t with taken := t.taken ++ [l.receiver.descr.flags] } : Traffic).pending = fs := pending_take hcons
  have hbuffers : t.buffers l.receiver.recvBuffers = (l.receiver.descr.address.toNat, f.bytes) ::
      ({ t with taken := t.taken ++ [l.receiver.descr.flags] } : Traffic).buffers l.receiver.recvBuffers := by
    rw [Traffic.buffers, Traffic.buffers, hpending, hcons, hlen, hinv.descr_eq, hinv.address]
    rfl
  have htext : l.receiver.text = f.text := by
    rw [Receiver.text, Frame.text, hflags]
    have hholds := h.holds _ (hbuffers ▸ List.mem_cons_self)
    exact textOf_congr fun i hi => hholds i (lt_of_lt_of_le hi (h.size f (hcons ▸ List.mem_cons_self)))
  refine ⟨fun b hb => h.holds b (hbuffers ▸ List.mem_cons_of_mem _ hb), fun g hg => ?_, ?_⟩
  · rw [hpending] at hg
    exact h.size g (hcons ▸ List.mem_cons_of_mem _ hg)
  · have htake : t.delivered.take (t.taken.length + 1) = t.delivered.take t.taken.length ++ [f] := by
      have hget : t.delivered[t.taken.length]? = some f := by
        rw [← List.head?_drop, ← Traffic.pending, hcons, List.head?_cons]
      rw [List.take_add_one, hget]
      rfl
    change l.printed ++ l.receiver.text = _
    rw [hlen, htake, List.flatMap_append, h.printed, htext, List.flatMap_singleton]

theorem prints_of_reachable {p : Link × Traffic} (h : ((system.monitored traffic).restrict Agrees).Reachable p) :
    p.1.Prints p.2 :=
  h.invariant (P := fun p => p.1.Prints p.2)
    (fun _ h => by
      obtain ⟨⟨mem, recvBuffers, avail, hl⟩, ht⟩ := h
      rw [hl, ht]
      exact ⟨fun _ hb => absurd hb List.not_mem_nil, fun _ hf => absurd hf List.not_mem_nil, rfl⟩)
    fun p i p' hreach hprints hstep => by
      have hinv := inv_of_reachable hreach.of_restrict
      obtain ⟨hagrees, hstep, ht⟩ := hstep
      rw [ht]
      cases i with
      | frame f =>
        obtain ⟨-, -, hl⟩ := hstep
        rw [hl]
        exact hprints.deliver hinv hagrees
      | iteration =>
        obtain ⟨hdrivers, hl⟩ := hstep
        rw [hl]
        exact hprints.take hinv hdrivers

/-- **What is printed** is the frames, each one once and in the order in which they have come, if each one agrees with
    those in the ring when it comes. The handler prints those in the ring. -/
theorem printed_of_agree (h : ((system.monitored traffic).restrict Agrees).Reachable (l, t)) :
    l.printed ++ t.pending.flatMap Frame.text = t.delivered.flatMap Frame.text ∧
      ∀ status, Receiver.hasFrames status → ∃ r', Settles (fun n => l.receiver.handleInterrupt status n)
        (some (r', Receiver.report status.toUInt32
          (ascii "AMD am79c973 DATA RECEIVED\n" ++ t.pending.flatMap Frame.text),
          [(.registerAddress, 0), (.registerAddress, 0), (.registerData, status)])) := by
  have hall : l.printed ++ t.pending.flatMap Frame.text = t.delivered.flatMap Frame.text := by
    rw [(prints_of_reachable h).printed, Traffic.pending, ← List.flatMap_append, List.take_append_drop]
  refine ⟨hall, fun status hstatus => ?_⟩
  obtain ⟨l', t', hsteps, hnil, hdelivered, text, hprinted, hloop⟩ :=
    (inv_of_reachable h.of_restrict).loop Agrees fun _ => trivial
  have htext : text = t.pending.flatMap Frame.text := by
    have hall' : l'.printed ++ t'.pending.flatMap Frame.text = t'.delivered.flatMap Frame.text := by
      rw [(prints_of_reachable (h.steps hsteps)).printed, Traffic.pending, ← List.flatMap_append,
        List.take_append_drop]
    rw [hnil, hdelivered, ← hall, hprinted, List.append_assoc] at hall'
    simpa using hall'
  rw [← htext]
  exact ⟨l'.receiver, handleInterrupt_settles hstatus hloop⟩

/-- A frame comes in, and is printed. -/
theorem printed_of_agree_short : (started.deliver (shortFrame 1)).take.printed = (shortFrame 1).text := by
  have h₁ : ((system.monitored traffic).restrict Agrees).Reachable
      (started.deliver (shortFrame 1), ⟨[shortFrame 1], []⟩) :=
    (started_reachable Agrees).step (i := .frame (shortFrame 1))
      ⟨⟨by decide, fun b hb => absurd hb List.not_mem_nil⟩, ⟨by decide, by decide, rfl⟩, rfl⟩
  have h₂ : ((system.monitored traffic).restrict Agrees).Reachable
      ((started.deliver (shortFrame 1)).take, ⟨[shortFrame 1], [0x0300003C]⟩) :=
    h₁.step (i := .iteration) ⟨trivial, ⟨by decide, rfl⟩, rfl⟩
  have hprinted := (printed_of_agree h₂).1
  have hpending : Traffic.pending ⟨[shortFrame 1], [0x0300003C]⟩ = [] := rfl
  rw [hpending, List.flatMap_nil, List.append_nil, List.flatMap_singleton] at hprinted
  exact hprinted

end Link

end GtuOs.AmdAm79c973
