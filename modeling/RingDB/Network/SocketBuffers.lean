import Mathlib.Algebra.Order.Group.Unbundled.Abs
import Mathlib.Order.CompletePartialOrder
import Mathlib.Order.Interval.Set.Disjoint
import RingDB.Network.Thread

/-!
# The socket buffers of two connections

`network_thread_routine` maps a region of
`lcm(SOCKET_BUFFER_LENGTH, ALIGN_NO_FALSE_SHARING) * MAX_SIMULTANEOUS_CONNECTIONS` bytes, room for
one aligned buffer per connection, and a `recv` may fill `SOCKET_BUFFER_LENGTH` bytes.  The buffer
that `ConnectionPool::insert` gives to descriptor `f`, however, begins `f - 1` *bytes* behind the
beginning of the region, not `f - 1` buffers behind it.  Also, the product is one of `int`s: where
it is `2^31` or more, the region is smaller than meant, or a negative length is asked for and
refused.

* `separate_iff` — which two clients nevertheless do not share memory.
* `hasRoom_of_lt` — as long as the product is an `int` there is room for the buffers of all
  descriptors.
-/

namespace RingDB

open Core

namespace ConnectionPool

/-- A descriptor of the pool: one of `1..MAX_SIMULTANEOUS_CONNECTIONS`, the number of objects that
the pool was created with. -/
def HasDescriptor (pool : ConnectionPool) (clientSockfd : ℤ) : Prop :=
  1 ≤ clientSockfd ∧ clientSockfd ≤ pool.connections.length

instance (pool : ConnectionPool) (clientSockfd : ℤ) :
    Decidable (pool.HasDescriptor clientSockfd) :=
  inferInstanceAs (Decidable (_ ∧ _))

variable {pool : ConnectionPool} {f g : ℤ}

theorem HasDescriptor.lt_length (h : pool.HasDescriptor f) :
    (f - 1).toNat < pool.connections.length := by
  have h₁ := h.1
  have h₂ := h.2
  omega

theorem HasDescriptor.place_ne (hf : pool.HasDescriptor f) (hg : pool.HasDescriptor g)
    (hne : f ≠ g) : (f - 1).toNat ≠ (g - 1).toNat := by
  have h₁ := hf.1
  have h₂ := hg.1
  omega

/-- The insertion of a descriptor of the pool does not fail. -/
theorem HasDescriptor.insert (h : pool.HasDescriptor f) (reqType : RequestType) :
    ∃ conn : ConnectionRequest, conn.buffer = pool.bufferOf f ∧
      pool.insert f reqType
        = .ok ({ pool with connections := pool.connections.set (f - 1).toNat (some conn) },
            (f - 1).toNat) := by
  have hget := List.getElem?_eq_getElem h.lt_length
  have hpos : 0 < f := h.1
  simp only [ConnectionPool.insert, hget, if_pos hpos]
  exact ⟨_, rfl, rfl⟩

/-- The objects of two connections that are open at once, each filled in by the `ACCEPT` branch. -/
def insertBoth (pool : ConnectionPool) (f g : ℤ) :
    Except Fault (ConnectionRequest × ConnectionRequest) := do
  let (pool₁, i) ← pool.insert f .recv
  let (pool₂, j) ← pool₁.insert g .recv
  let c ← pool₂.connection i
  let d ← pool₂.connection j
  return (c, d)

/-- Both connections keep the buffers that they were given. -/
theorem HasDescriptor.insertBoth (hf : pool.HasDescriptor f) (hg : pool.HasDescriptor g)
    (hne : f ≠ g) :
    ∃ c d : ConnectionRequest, pool.insertBoth f g = .ok (c, d) ∧
      c.buffer = pool.bufferOf f ∧ d.buffer = pool.bufferOf g := by
  rcases hf.insert .recv with ⟨c, hc, hinsert⟩
  have hg' : ({ pool with connections := pool.connections.set (f - 1).toNat (some c) } :
      ConnectionPool).HasDescriptor g := by simpa [HasDescriptor] using hg
  rcases hg'.insert .recv with ⟨d, hd, hinsert'⟩
  refine ⟨c, d, ?_, hc, hd⟩
  have hi := hf.lt_length
  have hj := hg.lt_length
  have hij := hf.place_ne hg hne
  refine bind_eq_ok.2 ⟨_, hinsert, bind_eq_ok.2 ⟨_, hinsert', bind_eq_ok.2 ⟨c, ?_,
    bind_eq_ok.2 ⟨d, ?_, rfl⟩⟩⟩⟩
  · rw [connection_ok_iff, List.getElem?_set_ne hij.symm]
    exact List.getElem?_set_self hi
  · rw [connection_ok_iff]
    exact List.getElem?_set_self (by simpa using hj)

end ConnectionPool

namespace Network

variable (cfg : Config)

/-- The product that is to be the length of `socket_buffers`, as the 32 bits that an `int` keeps. -/
def socketBuffersBits (maxSimultaneousConnections : ℕ) : ℕ :=
  Nat.lcm cfg.socketBufferLength cfg.alignNoFalseSharing * maxSimultaneousConnections % 2 ^ 32

/-- The length of `socket_buffers`, an `int`. -/
def socketBuffersLength (maxSimultaneousConnections : ℕ) : ℤ :=
  ReadWritePool.toInt (socketBuffersBits cfg maxSimultaneousConnections)

/-- The addresses that a `recv` of `SOCKET_BUFFER_LENGTH` bytes can fill. -/
def socketBuffer (buffer : ℕ) : Set ℕ := Set.Ico buffer (buffer + cfg.socketBufferLength)

/-- The addresses of the mapping.  A negative length is more than the address space as a `size_t`:
it is refused like the length `0`, and there is no mapping. -/
def socketBuffers (pool : ConnectionPool) : Set ℕ :=
  Set.Ico pool.bufferPool
    (pool.bufferPool + (socketBuffersLength cfg pool.connections.length).toNat)

/-- The mapping has room for a buffer at the place of descriptor `f`. -/
def HasRoom (pool : ConnectionPool) (f : ℤ) : Prop :=
  socketBuffersBits cfg pool.connections.length < 2 ^ 31
    ∧ f - 1 + cfg.socketBufferLength ≤ socketBuffersBits cfg pool.connections.length

instance (pool : ConnectionPool) (f : ℤ) : Decidable (HasRoom cfg pool f) :=
  inferInstanceAs (Decidable (_ ∧ _))

/-- What arrives in one buffer does not change a byte of the other one. -/
def RecvKeeps (buffer other : ℕ) : Prop :=
  ∀ (mem : Memory) (b : Bytes), b.length ≤ cfg.socketBufferLength →
    bytesAt (store mem buffer b) other cfg.socketBufferLength
      = bytesAt mem other cfg.socketBufferLength

/-- The clients of the two buffers do not share memory. -/
structure Separate (pool : ConnectionPool) (buffer other : ℕ) : Prop where
  disjoint : Disjoint (socketBuffer cfg buffer) (socketBuffer cfg other)
  inside : socketBuffer cfg buffer ⊆ socketBuffers cfg pool
  otherInside : socketBuffer cfg other ⊆ socketBuffers cfg pool
  keeps : RecvKeeps cfg buffer other
  otherKeeps : RecvKeeps cfg other buffer

theorem socketBufferLength_pos : 0 < cfg.socketBufferLength := by
  unfold Config.socketBufferLength
  omega

variable {cfg}

/-- Disjoint ranges of one positive length lie one behind the other. -/
theorem disjoint_socketBuffer_iff {a b : ℕ} :
    Disjoint (socketBuffer cfg a) (socketBuffer cfg b)
      ↔ a + cfg.socketBufferLength ≤ b ∨ b + cfg.socketBufferLength ≤ a := by
  have hpos := socketBufferLength_pos cfg
  rw [socketBuffer, socketBuffer, Set.Ico_disjoint_Ico]
  omega

theorem recvKeeps_of_disjoint {a b : ℕ}
    (h : Disjoint (socketBuffer cfg a) (socketBuffer cfg b)) : RecvKeeps cfg a b := by
  intro mem bytes hlen
  have hcases := disjoint_socketBuffer_iff.1 h
  exact bytesAt_store_disjoint (by omega)

theorem socketBuffer_subset_iff {pool : ConnectionPool} {a : ℕ} :
    socketBuffer cfg a ⊆ socketBuffers cfg pool
      ↔ pool.bufferPool ≤ a ∧ a + cfg.socketBufferLength
        ≤ pool.bufferPool + (socketBuffersLength cfg pool.connections.length).toNat := by
  have hpos := socketBufferLength_pos cfg
  exact Set.Ico_subset_Ico_iff (by omega)

/-- The length of the mapping that is made. -/
theorem toNat_socketBuffersLength (n : ℕ) :
    (socketBuffersLength cfg n).toNat
      = if socketBuffersBits cfg n < 2 ^ 31 then socketBuffersBits cfg n else 0 := by
  have hlt : socketBuffersBits cfg n < 2 ^ 32 := Nat.mod_lt _ (Nat.two_pow_pos 32)
  rw [socketBuffersLength, ReadWritePool.toInt]
  split_ifs
  · exact Int.toNat_natCast _
  · omega

/-- The buffer of a descriptor lies inside the mapping exactly if there is room for it. -/
theorem bufferOf_inside_iff {pool : ConnectionPool} {f : ℤ} (hf : pool.HasDescriptor f) :
    socketBuffer cfg (pool.bufferOf f) ⊆ socketBuffers cfg pool ↔ HasRoom cfg pool f := by
  have hpos := socketBufferLength_pos cfg
  have h₁ := hf.1
  rw [socketBuffer_subset_iff, ConnectionPool.bufferOf, toNat_socketBuffersLength, HasRoom]
  split_ifs
  · omega
  · omega

/-- As long as the product is an `int`, and an alignment is asked for, there is room for the buffers
of all descriptors. -/
theorem hasRoom_of_lt {pool : ConnectionPool} (halign : 0 < cfg.alignNoFalseSharing)
    (hint : Nat.lcm cfg.socketBufferLength cfg.alignNoFalseSharing * pool.connections.length
      < 2 ^ 31)
    {f : ℤ} (hf : pool.HasDescriptor f) : HasRoom cfg pool f := by
  have hpos := socketBufferLength_pos cfg
  have hplace := hf.lt_length
  have h₁ := hf.1
  have hbits : socketBuffersBits cfg pool.connections.length
      = Nat.lcm cfg.socketBufferLength cfg.alignNoFalseSharing * pool.connections.length :=
    Nat.mod_eq_of_lt (by omega)
  have hlcm : cfg.socketBufferLength ≤ Nat.lcm cfg.socketBufferLength cfg.alignNoFalseSharing :=
    Nat.le_of_dvd (Nat.lcm_pos hpos halign) (Nat.dvd_lcm_left _ _)
  have hle : (f - 1).toNat + cfg.socketBufferLength
      ≤ Nat.lcm cfg.socketBufferLength cfg.alignNoFalseSharing * pool.connections.length :=
    calc (f - 1).toNat + cfg.socketBufferLength
        ≤ cfg.socketBufferLength * (f - 1).toNat + cfg.socketBufferLength := by
          have := Nat.le_mul_of_pos_left (f - 1).toNat hpos
          omega
      _ = cfg.socketBufferLength * ((f - 1).toNat + 1) := (Nat.mul_succ ..).symm
      _ ≤ cfg.socketBufferLength * pool.connections.length := Nat.mul_le_mul_left _ hplace
      _ ≤ _ := Nat.mul_le_mul_right _ hlcm
  rw [HasRoom, hbits]
  omega

/-- The buffers of two descriptors are disjoint exactly if a whole buffer fits between the
descriptors. -/
theorem disjoint_bufferOf_iff {pool : ConnectionPool} {f g : ℤ} (hf : pool.HasDescriptor f)
    (hg : pool.HasDescriptor g) :
    Disjoint (socketBuffer cfg (pool.bufferOf f)) (socketBuffer cfg (pool.bufferOf g))
      ↔ (cfg.socketBufferLength : ℤ) ≤ |f - g| := by
  have h₁ := hf.1
  have h₂ := hg.1
  rw [disjoint_socketBuffer_iff, ConnectionPool.bufferOf, ConnectionPool.bufferOf, le_abs]
  omega

/-- Two clients of the pool, whatever it holds, do not share memory if and only if the mapping has
room for both of their buffers and their descriptors are at least a buffer's length apart. -/
theorem separate_iff {pool : ConnectionPool} {f g : ℤ} (hf : pool.HasDescriptor f)
    (hg : pool.HasDescriptor g) (hne : f ≠ g) :
    (∃ c d : ConnectionRequest, pool.insertBoth f g = .ok (c, d) ∧
        Separate cfg pool c.buffer d.buffer)
      ↔ HasRoom cfg pool f ∧ HasRoom cfg pool g ∧ (cfg.socketBufferLength : ℤ) ≤ |f - g| := by
  rcases hf.insertBoth hg hne with ⟨c, d, hboth, hc, hd⟩
  constructor
  · rintro ⟨c', d', hboth', hsep⟩
    rw [hboth] at hboth'
    cases hboth'
    rw [hc, hd] at hsep
    exact ⟨(bufferOf_inside_iff hf).1 hsep.inside, (bufferOf_inside_iff hg).1 hsep.otherInside,
      (disjoint_bufferOf_iff hf hg).1 hsep.disjoint⟩
  · rintro ⟨hroom, hroom', hle⟩
    have hdis :
        Disjoint (socketBuffer cfg (pool.bufferOf f)) (socketBuffer cfg (pool.bufferOf g)) :=
      (disjoint_bufferOf_iff hf hg).2 hle
    refine ⟨c, d, hboth, ?_⟩
    rw [hc, hd]
    exact
      { disjoint := hdis
        inside := (bufferOf_inside_iff hf).2 hroom
        otherInside := (bufferOf_inside_iff hg).2 hroom'
        keeps := recvKeeps_of_disjoint hdis
        otherKeeps := recvKeeps_of_disjoint hdis.symm }

/-- With buffers of 4101 bytes and ten thousand connections the product is too large for an `int`,
and there is room for no buffer. -/
example : ¬ HasRoom { shippedConfig with valueLength := 4095, valueLength_pos := by decide }
    (ConnectionPool.new 10000 0) 1 := by
  decide +kernel

/-- The shipped buffers have eight bytes: descriptors 1 and 9 are far enough apart. -/
theorem separate_one_nine :
    ∃ c d : ConnectionRequest, (ConnectionPool.new 100 0).insertBoth 1 9 = .ok (c, d) ∧
      Separate shippedConfig (ConnectionPool.new 100 0) c.buffer d.buffer :=
  (separate_iff (by decide) (by decide) (by decide)).2 (by decide)

/-- Descriptors 1 and 2 are not: the buffers overlap, and a request of client 1 changes what
client 2 sent. -/
theorem shared_one_two :
    ∃ c d : ConnectionRequest, (ConnectionPool.new 100 0).insertBoth 1 2 = .ok (c, d) ∧
      ¬ Disjoint (socketBuffer shippedConfig c.buffer) (socketBuffer shippedConfig d.buffer) ∧
      ¬ RecvKeeps shippedConfig c.buffer d.buffer := by
  have hf : (ConnectionPool.new 100 0).HasDescriptor 1 := by decide
  have hg : (ConnectionPool.new 100 0).HasDescriptor 2 := by decide
  rcases hf.insertBoth hg (by decide) with ⟨c, d, hboth, hc, hd⟩
  refine ⟨c, d, hboth, ?_, ?_⟩
  · rw [hc, hd, disjoint_bufferOf_iff hf hg]
    decide
  · intro hkeeps
    rw [hc, hd] at hkeeps
    have hbytes := hkeeps (fun _ => 0) [1, 1] (by decide)
    exact absurd hbytes (by decide)

end Network

end RingDB
