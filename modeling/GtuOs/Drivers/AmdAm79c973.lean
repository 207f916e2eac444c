import GtuOs.Lib.Memory
import Mathlib.Algebra.Group.Int.Defs
import Mathlib.Data.Int.Notation
import Mathlib.Data.List.Induction

/-!
# The network card

The sending side of `amd_am79c973.cpp`: the descriptors set up by the constructor, and
`Send`. The member `sendBuffers` is declared as `[2*1024+15][8]`, so that the buffers of
consecutive descriptors are eight bytes apart before they are rounded up to sixteen.
The packets in the ring are thus intact exactly if they agree where they overlap
(`intact_iff`).
-/

namespace GtuOs.AmdAm79c973

structure BufferDescriptor where
  address : UInt32
  flags : UInt32
  flags2 : UInt32
  avail : UInt32

inductive Port
  | registerAddress
  | registerData

end AmdAm79c973

open AmdAm79c973 in
/-- The members used by `Send`, with the address of `sendBuffers`, the memory, and what is
    written to the ports. -/
structure AmdAm79c973 where
  mem : Memory
  sendBuffers : UInt32
  sendBufferDescr : Fin 8 → BufferDescriptor
  currentSendBuffer : UInt8
  ports : List (Port × UInt16)

namespace AmdAm79c973

/-- The size of a row of `sendBuffers`. -/
def rowSize : UInt32 := 8

/-- `sizeof(sendBuffers)`. -/
def sizeofSendBuffers : ℕ := (2 * 1024 + 15) * 8

/-- The address of `sendBuffers[i]`, rounded up. -/
def slot (sendBuffers : UInt32) (i : Fin 8) : UInt32 :=
  (sendBuffers + .ofNat i * rowSize + 15) &&& ~~~0xF

/-- The constructor, as far as it sets up the ring. -/
def construct (mem : Memory) (sendBuffers : UInt32) : AmdAm79c973 where
  mem := mem
  sendBuffers := sendBuffers
  sendBufferDescr i := ⟨slot sendBuffers i, 0x7FF ||| 0xF000, 0, 0⟩
  currentSendBuffer := 0
  ports := []

/-- The copying loop of `Send`, from the last of `n` bytes down. -/
def copyDown (buffer : ℕ → UInt8) (address : ℕ) (m : Memory) : ℕ → Memory
  | 0 => m
  | n + 1 => copyDown buffer address (m.store (address + n) 1 fun _ => buffer n) n

/-- The sizes that `Send` does not cut. -/
def maxSize : ℤ := 1518

/-- The descriptors are used in turn. -/
def ringIndex (n : ℕ) : Fin 8 := ⟨n % 8, Nat.mod_lt n (by decide)⟩

/-- `Send`. -/
def send (d : AmdAm79c973) (buffer : ℕ → UInt8) (size : ℤ) : AmdAm79c973 :=
  let sendDescriptor := ringIndex d.currentSendBuffer.toNat
  let size := if size > maxSize then maxSize else size
  let descr := d.sendBufferDescr sendDescriptor
  let flags := 0x8300F000 ||| (UInt16.ofInt (-size) &&& 0xFFF).toUInt32
  { d with
    currentSendBuffer := (d.currentSendBuffer + 1) % 8
    mem := copyDown buffer descr.address.toNat d.mem size.toNat
    sendBufferDescr := fun i =>
      if i = sendDescriptor then { descr with avail := 0, flags2 := 0, flags := flags }
      else d.sendBufferDescr i
    ports := d.ports ++ [(.registerAddress, 0), (.registerData, 0x48)] }

/-- A packet. -/
structure Packet where
  buffer : ℕ → UInt8
  size : ℤ

/-- The packets are sent, one after the other. -/
def sendAll (d : AmdAm79c973) (ps : List Packet) : AmdAm79c973 :=
  ps.foldl (fun d p => d.send p.buffer p.size) d

/-- The descriptor of the packet `k` of those sent from now on. -/
def descriptorOf (d : AmdAm79c973) (k : ℕ) : Fin 8 := ringIndex (d.currentSendBuffer.toNat + k)

/-- Every packet is still at the address of its descriptor, and nothing is written out of
    `sendBuffers`. -/
structure Intact (d : AmdAm79c973) (ps : List Packet) : Prop where
  kept : ∀ (k : ℕ) (p : Packet), ps[k]? = some p → ∀ j < p.size.toNat,
    (d.sendAll ps).mem (((d.sendAll ps).sendBufferDescr (d.descriptorOf k)).address.toNat + j) = p.buffer j
  inside : ∀ x, x < d.sendBuffers.toNat ∨ d.sendBuffers.toNat + sizeofSendBuffers ≤ x →
    (d.sendAll ps).mem x = d.mem x

/-- The packets agree on the bytes that their buffers share. -/
def Agree (d : AmdAm79c973) (ps : List Packet) : Prop :=
  ∀ (k k' : ℕ) (p p' : Packet), ps[k]? = some p → ps[k']? = some p' →
    ∀ j < p.size.toNat, ∀ j' < p'.size.toNat,
      (slot d.sendBuffers (d.descriptorOf k)).toNat + j =
        (slot d.sendBuffers (d.descriptorOf k')).toNat + j' → p.buffer j = p'.buffer j'

/-! ## The ring -/

theorem and_not_15 {x : ℕ} (h : x < 2 ^ 32) : x &&& 0xFFFFFFF0 = x / 16 * 16 := by
  have hmask : 0xFFFFFFF0 = (2 ^ 28 - 1) <<< 4 := by decide
  have hmul : x / 16 * 16 = 2 ^ 4 * (x / 2 ^ 4) := Nat.mul_comm _ _
  apply Nat.eq_of_testBit_eq
  intro i
  rw [hmask, hmul, Nat.testBit_and, Nat.testBit_shiftLeft, Nat.testBit_two_pow_sub_one,
    Nat.testBit_two_pow_mul, Nat.testBit_div_two_pow]
  by_cases hi : 4 ≤ i
  · rw [Nat.sub_add_cancel hi]
    cases hb : x.testBit i with
    | false => simp
    | true =>
      -- Bits of `x` are below the 32nd.
      have hlt : 2 ^ i < 2 ^ 32 := Nat.lt_of_le_of_lt (Nat.ge_two_pow_of_testBit hb) h
      have := (Nat.pow_lt_pow_iff_right (by decide)).1 hlt
      simp [hi]
      omega
  · simp [hi]

/-- Rows are rounded up to a multiple of sixteen. -/
theorem toNat_slot {b : UInt32} {i : Fin 8} (h : b.toNat + sizeofSendBuffers ≤ 2 ^ 32) :
    (slot b i).toNat = (b.toNat + 8 * i.val + 15) / 16 * 16 := by
  have hi := i.isLt
  have hsize : sizeofSendBuffers = 16504 := rfl
  have hrow : (UInt32.ofNat i * rowSize).toNat = 8 * i.val := by
    rw [UInt32.toNat_mul, UInt32.toNat_ofNat']
    change i.val % 2 ^ 32 * 8 % 2 ^ 32 = _
    omega
  have hsum : (b + .ofNat i * rowSize + 15).toNat = b.toNat + 8 * i.val + 15 := by
    rw [UInt32.toNat_add, UInt32.toNat_add, hrow]
    change ((b.toNat + 8 * i.val) % 2 ^ 32 + 15) % 2 ^ 32 = _
    omega
  rw [slot, UInt32.toNat_and, hsum]
  exact and_not_15 (by omega)

variable {d : AmdAm79c973} {ps : List Packet} {p : Packet} {m : Memory} {buffer : ℕ → UInt8}
  {a n x : ℕ} {size : ℤ}

/-- The loop copies the bytes. -/
theorem copyDown_eq : copyDown buffer a m n = m.store a n buffer := by
  induction n generalizing m with
  | zero =>
    funext x
    exact (Memory.store_of_not_mem (by omega)).symm
  | succ n ih =>
    funext x
    rw [copyDown, ih]
    by_cases hx : a ≤ x ∧ x < a + n
    · rw [Memory.store_of_mem hx, Memory.store_of_mem (by omega)]
    · rw [Memory.store_of_not_mem (by omega)]
      by_cases hx' : x = a + n
      · rw [hx', Memory.store_of_mem (by omega), Memory.store_of_mem (by omega), Nat.add_sub_cancel_left]
      · rw [Memory.store_of_not_mem (by omega), Memory.store_of_not_mem (by omega)]

/-- A ring as set up by the constructor, with any number of packets sent since. -/
structure Ready (d : AmdAm79c973) : Prop where
  inside : d.sendBuffers.toNat + sizeofSendBuffers ≤ 2 ^ 32
  address : ∀ i, (d.sendBufferDescr i).address = slot d.sendBuffers i
  current : d.currentSendBuffer.toNat < 8

theorem ready_construct {b : UInt32} (h : b.toNat + sizeofSendBuffers ≤ 2 ^ 32) :
    (construct m b).Ready := ⟨h, fun _ => rfl, (by decide : (0 : UInt8).toNat < 8)⟩

theorem Ready.send (h : d.Ready) : (d.send buffer size).Ready := by
  refine ⟨h.inside, fun i => ?_, ?_⟩
  · have hbuffers : (d.send buffer size).sendBuffers = d.sendBuffers := rfl
    rw [hbuffers, ← h.address i, AmdAm79c973.send]
    by_cases hi : i = ringIndex d.currentSendBuffer.toNat
    · simp only [hi, if_true]
    · simp only [if_neg hi]
  · change ((d.currentSendBuffer + 1) % 8).toNat < 8
    rw [UInt8.toNat_mod]
    exact Nat.mod_lt _ (by decide)

theorem sendAll_append : d.sendAll (ps ++ [p]) = (d.sendAll ps).send p.buffer p.size := by
  rw [sendAll, sendAll, List.foldl_append]
  rfl

/-- The packets take the descriptors in turn. -/
theorem Ready.sendAll (h : d.Ready) (ps : List Packet) : (d.sendAll ps).Ready ∧
    (d.sendAll ps).sendBuffers = d.sendBuffers ∧
    (d.sendAll ps).currentSendBuffer.toNat = (d.currentSendBuffer.toNat + ps.length) % 8 := by
  induction ps using List.reverseRecOn with
  | nil => exact ⟨h, rfl, (Nat.mod_eq_of_lt h.current).symm⟩
  | append_singleton ps p ih =>
    obtain ⟨hready, hbuffers, hcurrent⟩ := ih
    rw [sendAll_append]
    refine ⟨hready.send, hbuffers, ?_⟩
    change ((_ + 1) % 8 : UInt8).toNat = _
    rw [UInt8.toNat_mod, UInt8.toNat_add, hcurrent, List.length_append, List.length_singleton]
    change (_ % 8 + 1) % 256 % 8 = _
    omega

/-- The memory after one more packet. -/
theorem Ready.mem_append (h : d.Ready) (hp : p.size ≤ maxSize) : (d.sendAll (ps ++ [p])).mem =
    (d.sendAll ps).mem.store (slot d.sendBuffers (d.descriptorOf ps.length)).toNat p.size.toNat p.buffer := by
  obtain ⟨hready, hbuffers, hcurrent⟩ := h.sendAll ps
  have hdescr : (d.sendAll ps).descriptorOf 0 = d.descriptorOf ps.length := by
    apply Fin.ext
    change ((d.sendAll ps).currentSendBuffer.toNat + 0) % 8 = (d.currentSendBuffer.toNat + ps.length) % 8
    rw [hcurrent, Nat.add_zero, Nat.mod_mod]
  rw [sendAll_append, ← hbuffers, ← hdescr, ← hready.address, ← copyDown_eq]
  have hsize : (if p.size > maxSize then maxSize else p.size) = p.size := if_neg (Int.not_lt.2 hp)
  rw [AmdAm79c973.send]
  dsimp only
  rw [hsize]
  rfl

/-- The buffers are within `sendBuffers`. -/
theorem Ready.slot_inside (h : d.Ready) (i : Fin 8) : d.sendBuffers.toNat ≤ (slot d.sendBuffers i).toNat ∧
    (slot d.sendBuffers i).toNat + 1518 ≤ d.sendBuffers.toNat + sizeofSendBuffers := by
  have hi := i.isLt
  have hsize : sizeofSendBuffers = 16504 := rfl
  rw [toNat_slot h.inside]
  omega

/-- Nothing is written out of `sendBuffers`. -/
theorem Ready.mem_outside (h : d.Ready) (hps : ∀ p ∈ ps, p.size ≤ maxSize)
    (hx : x < d.sendBuffers.toNat ∨ d.sendBuffers.toNat + sizeofSendBuffers ≤ x) :
    (d.sendAll ps).mem x = d.mem x := by
  induction ps using List.reverseRecOn with
  | nil => rfl
  | append_singleton ps p ih =>
    have hp : p.size ≤ maxSize := hps p (by simp)
    obtain ⟨hle, hle'⟩ := h.slot_inside (d.descriptorOf ps.length)
    have hsize : p.size.toNat ≤ 1518 := by
      change p.size ≤ 1518 at hp
      omega
    rw [h.mem_append hp, Memory.store_of_not_mem (by omega)]
    exact ih fun q hq => hps q (List.mem_append_left _ hq)

/-- Packets that agree are all in the ring. -/
theorem Ready.kept_of_agree (h : d.Ready) (hps : ∀ p ∈ ps, p.size ≤ maxSize) (hagree : d.Agree ps)
    {k j : ℕ} (hk : ps[k]? = some p) (hj : j < p.size.toNat) :
    (d.sendAll ps).mem ((slot d.sendBuffers (d.descriptorOf k)).toNat + j) = p.buffer j := by
  induction ps using List.reverseRecOn generalizing p k j with
  | nil => simp at hk
  | append_singleton ps q ih =>
    rw [h.mem_append (hps q (by simp))]
    have hq : (ps ++ [q])[ps.length]? = some q := List.getElem?_concat_length
    by_cases hx : (slot d.sendBuffers (d.descriptorOf ps.length)).toNat ≤
          (slot d.sendBuffers (d.descriptorOf k)).toNat + j ∧
        (slot d.sendBuffers (d.descriptorOf k)).toNat + j <
          (slot d.sendBuffers (d.descriptorOf ps.length)).toNat + q.size.toNat
    · -- Overwritten by the last packet, which agrees.
      rw [Memory.store_of_mem hx]
      exact (hagree k _ p q hk hq j hj _ (by omega) (by omega)).symm
    -- Otherwise it is one of the packets before, and still there.
    · have hk' : ps[k]? = some p := by
        rcases Nat.lt_trichotomy k ps.length with hlt | rfl | hlt
        · rwa [List.getElem?_append_left hlt] at hk
        · cases hq.symm.trans hk
          exact absurd ⟨by omega, by omega⟩ hx
        · rw [List.getElem?_eq_none (by simp; omega)] at hk
          cases hk
      rw [Memory.store_of_not_mem (by omega)]
      refine ih (fun r hr => hps r (List.mem_append_left _ hr)) (fun k k' r r' hr hr' => ?_) hk' hj
      have hold : ∀ {k : ℕ} {r : Packet}, ps[k]? = some r → (ps ++ [q])[k]? = some r := fun hr => by
        rw [List.getElem?_append_left (List.getElem?_eq_some_iff.1 hr).1, hr]
      exact hagree k k' r r' (hold hr) (hold hr')

/-- The packets sent to a ring are intact exactly if they agree where their buffers overlap. -/
theorem intact_iff (m : Memory) {b : UInt32} (hb : b.toNat + sizeofSendBuffers ≤ 2 ^ 32)
    (before : List Packet) (hps : ∀ p ∈ ps, 1 ≤ p.size ∧ p.size ≤ maxSize) :
    ((construct m b).sendAll before).Intact ps ↔ ((construct m b).sendAll before).Agree ps := by
  have h := ((ready_construct (m := m) hb).sendAll before).1
  generalize (construct m b).sendAll before = d at h ⊢
  have hready := (h.sendAll ps).1
  have haddr : ∀ i, ((d.sendAll ps).sendBufferDescr i).address = slot d.sendBuffers i := fun i => by
    rw [hready.address, (h.sendAll ps).2.1]
  constructor
  · intro hintact k k' p p' hk hk' j hj j' hj' heq
    rw [← hintact.kept k p hk j hj, ← hintact.kept k' p' hk' j' hj', haddr, haddr, heq]
  · intro hagree
    refine ⟨fun k p hk j hj => ?_, fun x hx => h.mem_outside (fun p hp => (hps p hp).2) hx⟩
    rw [haddr]
    exact h.kept_of_agree (fun p hp => (hps p hp).2) hagree hk hj

/-- A packet of sixteen bytes. -/
def shortPacket (v : UInt8) : Packet := ⟨fun _ => v, 16⟩

/-- Two packets that agree. -/
theorem intact_iff_same : ((construct (fun _ => 0) 4096).sendAll []).Intact [shortPacket 1, shortPacket 1] := by
  refine (intact_iff _ (by decide) [] (by decide)).2 fun k k' p p' hk hk' j _ j' _ _ => ?_
  have hsame : ∀ p ∈ [shortPacket 1, shortPacket 1], p = shortPacket 1 := by simp
  rw [hsame p (List.mem_of_getElem? hk), hsame p' (List.mem_of_getElem? hk')]
  rfl

/-- The third packet overwrites the second one. -/
theorem not_intact_short :
    ¬(construct (fun _ => 0) 4096).Intact [shortPacket 1, shortPacket 2, shortPacket 3] := by
  intro h
  have hkept := h.kept 1 (shortPacket 2) rfl 0 (by decide)
  exact absurd hkept (by decide +kernel)

end GtuOs.AmdAm79c973
