import RingDB.Network.Receiving
import RingDB.Network.SocketBuffers

/-!
# What receiving does to the bytes of a request

The RECV branch clears a range of the socket buffer before it looks at the type of the request.  The
range begins behind the key, and it ends `VALUE_LENGTH` bytes behind the beginning of the *buffer*:
five bytes and a key before the end of the value, if not before its beginning.

`recv_preserves_iff` says which requests survive this.
-/

namespace RingDB.Network

open Core

variable {cfg : Config}

/-- The request at `buffer` is the one that arrived, and nothing else was written. -/
structure Preserved (cfg : Config) (mem mem' : Memory) (buffer : ℕ) : Prop where
  outside : ∀ q, q ∉ socketBuffer cfg buffer → mem' q = mem q
  /-- The type and the key. -/
  head : bytesAt mem' buffer (5 + cfg.keyLength) = bytesAt mem buffer (5 + cfg.keyLength)
  value : State.requestType mem buffer = .write →
    bytesAt mem' (buffer + 5 + cfg.keyLength) cfg.valueLength
      = bytesAt mem (buffer + 5 + cfg.keyLength) cfg.valueLength

/-- The bytes of the value that are cleared are NUL already. -/
def ClearedNul (cfg : Config) (mem : Memory) (buffer : ℕ) : Prop :=
  bytesAt mem (buffer + 5 + cfg.keyLength) (cfg.valueLength - (5 + cfg.keyLength))
    = nulBytes (cfg.valueLength - (5 + cfg.keyLength))

instance (mem : Memory) (buffer : ℕ) : Decidable (ClearedNul cfg mem buffer) :=
  inferInstanceAs (Decidable (_ = _))

section Fill

variable {mem mem' : Memory} {buffer : ℕ}

theorem take_bytesAt (mem : Memory) (p : ℕ) {m n : ℕ} (h : m ≤ n) :
    (bytesAt mem p n).take m = bytesAt mem p m := by
  rw [bytesAt, bytesAt, ← List.map_take, List.take_range, Nat.min_eq_left h]

theorem preserved_of_fill (hdef : FillDefined cfg)
    (hfill : State.fillNul mem (buffer + 5 + cfg.keyLength) (buffer + cfg.valueLength) = .ok mem') :
    Preserved cfg mem mem' buffer
      ↔ (State.requestType mem buffer = .write → ClearedNul cfg mem buffer) := by
  unfold FillDefined at hdef
  have hlen : buffer + cfg.valueLength - (buffer + 5 + cfg.keyLength)
      = cfg.valueLength - (5 + cfg.keyLength) := by omega
  rw [State.fillNul, if_pos (by omega), hlen] at hfill
  cases hfill
  constructor
  · intro h hwrite
    -- the cleared bytes are the first ones of the value
    have hvalue := congrArg (List.take (cfg.valueLength - (5 + cfg.keyLength))) (h.value hwrite)
    rw [take_bytesAt _ _ (by omega), take_bytesAt _ _ (by omega)] at hvalue
    have hself := bytesAt_store_self mem (buffer + 5 + cfg.keyLength)
      (nulBytes (cfg.valueLength - (5 + cfg.keyLength)))
    rw [length_nulBytes] at hself
    exact hvalue.symm.trans hself
  · intro h
    refine ⟨fun q hq => ?_, ?_, fun hwrite => ?_⟩
    · refine store_outside ?_
      rw [length_nulBytes]
      rw [socketBuffer, Set.mem_Ico, Config.socketBufferLength] at hq
      omega
    · exact bytesAt_store_disjoint (.inl (by omega))
    · have hsame : store mem (buffer + 5 + cfg.keyLength)
          (nulBytes (cfg.valueLength - (5 + cfg.keyLength))) = mem := by
        rw [← h hwrite, store_bytesAt]
      rw [hsame]

end Fill

section Branch

variable {s s' : State cfg} {alloc : Allocator cfg} {i : ℕ} {conn : ConnectionRequest}

/-- With a range to clear and a batch that was not deleted the branch has an outcome. -/
theorem recvBranch_ok {b : RequestBatch cfg} (hdef : FillDefined cfg)
    (hconn : s.pool.connection i = .ok conn) (hb : s.deref s.batch = .ok b) :
    ∃ s', s.recvBranch alloc i = .ok s' := by
  unfold FillDefined at hdef
  obtain ⟨mem, hmem⟩ : ∃ mem, State.fillNul s.mem (conn.buffer + 5 + cfg.keyLength)
      (conn.buffer + cfg.valueLength) = .ok mem := ⟨_, if_pos (by omega)⟩
  have hheap : s.heap.deref s.batch = .ok b := by
    unfold State.deref at hb
    split_ifs at hb
    exact hb
  have hb' : (s.recordReceived mem conn).deref s.batch = .ok b := hb
  by_cases hroom : b.readwritePool.entries.length < cfg.batchNumRequests
  · obtain ⟨rw', hrw⟩ : ∃ rw', b.readwritePool.insertReadWrite cfg mem
        ⟨State.requestType mem conn.buffer, s.batch, conn.clientSockFd, conn.buffer⟩ = .ok rw' :=
      ReadWritePool.insertReadWrite_ok _ (hroom.trans_le cfg.batchNumRequests_le_pageSize)
    have hins : s.heap.insertReadWrite mem s.batch conn.buffer conn.clientSockFd
        (State.requestType mem conn.buffer)
          = .ok (s.heap.set s.batch { b with readwritePool := rw' }) :=
      bind_eq_ok.2 ⟨b, hheap, bind_eq_ok.2 ⟨_, bind_eq_ok.2 ⟨rw', hrw, rfl⟩, rfl⟩⟩
    refine ⟨{ s.recordReceived mem conn with
      heap := s.heap.set s.batch { b with readwritePool := rw' } },
      bind_eq_ok.2 ⟨conn, hconn, bind_eq_ok.2 ⟨mem, hmem, bind_eq_ok.2 ⟨b, hb', ?_⟩⟩⟩⟩
    rw [if_pos hroom]
    exact bind_eq_ok.2 ⟨_, hins, rfl⟩
  · refine ⟨{ (s.recordReceived mem conn).prep (.message s.batch) with
      heap := (s.heap.alloc alloc .read).1
      batch := (s.heap.alloc alloc .read).2
      log := { (s.recordReceived mem conn).log with
        handedOver := s.log.handedOver ++ [s.batch] } },
      bind_eq_ok.2 ⟨conn, hconn, bind_eq_ok.2 ⟨mem, hmem, bind_eq_ok.2 ⟨b, hb', ?_⟩⟩⟩⟩
    rw [if_neg hroom]
    rfl

/-- All that the branch does to memory is the fill. -/
theorem recvBranch_mem (hconn : s.pool.connection i = .ok conn)
    (h : s.recvBranch alloc i = .ok s') :
    State.fillNul s.mem (conn.buffer + 5 + cfg.keyLength) (conn.buffer + cfg.valueLength)
      = .ok s'.mem := by
  rcases State.recvBranch_cases h with ⟨conn', mem, _, hconn', hfill, -, hcases⟩
  rw [hconn] at hconn'
  cases hconn'
  rcases hcases with ⟨-, heap, -, rfl⟩ | ⟨-, rfl⟩
  · exact hfill
  · exact hfill

/-- The branch has an outcome and preserves the request if and only if the value has room for the
type and the key, and the bytes of it that are cleared are NUL anyway unless the request is a
READ. -/
theorem recv_preserves_iff (alloc : Allocator cfg) (s : State cfg) {i : ℕ}
    {conn : ConnectionRequest}
    {b : RequestBatch cfg} (hconn : s.pool.connection i = .ok conn)
    (hb : s.deref s.batch = .ok b) :
    (∃ s', s.recvBranch alloc i = .ok s' ∧ Preserved cfg s.mem s'.mem conn.buffer)
      ↔ 5 + cfg.keyLength ≤ cfg.valueLength ∧
        (State.requestType s.mem conn.buffer = .write → ClearedNul cfg s.mem conn.buffer) := by
  constructor
  · rintro ⟨s', h, hpres⟩
    have hdef : FillDefined cfg := by
      by_contra hno
      exact recvBranch_fill hno h
    exact ⟨hdef, (preserved_of_fill hdef (recvBranch_mem hconn h)).1 hpres⟩
  · rintro ⟨hdef, hnul⟩
    have hbranch : ∃ s', s.recvBranch alloc i = .ok s' := recvBranch_ok hdef hconn hb
    rcases hbranch with ⟨s', h⟩
    exact ⟨s', h, (preserved_of_fill hdef (recvBranch_mem hconn h)).2 hnul⟩

theorem threeClients_connection : threeClients.connection 0 = .ok ⟨.recv, 0, 1, 0⟩ := rfl

/-- A first request of NUL bytes, with room for it. -/
theorem recv_preserves_nul :
    ∃ s', (State.start (.zeroed pairConfig) [] (fun _ => 0) threeClients).recvBranch
        (.zeroed pairConfig) 0 = .ok s' ∧ Preserved pairConfig (fun _ => 0) s'.mem 0 :=
  (recv_preserves_iff (.zeroed pairConfig)
    (State.start (.zeroed pairConfig) [] (fun _ => 0) threeClients) threeClients_connection rfl).2
    ⟨by decide, fun _ => by decide +kernel⟩

/-- As shipped the branch has no outcome at all, for any request.  Where it has one, a WRITE of
other bytes is not preserved. -/
theorem recv_loses_bytes :
    (¬ ∃ s', (State.start (.zeroed shippedConfig) [] (fun _ => 1) threeClients).recvBranch
        (.zeroed shippedConfig) 0 = .ok s' ∧ Preserved shippedConfig (fun _ => 1) s'.mem 0) ∧
    ¬ ∃ s', (State.start (.zeroed pairConfig) [] (fun _ => 1) threeClients).recvBranch
        (.zeroed pairConfig) 0 = .ok s' ∧ Preserved pairConfig (fun _ => 1) s'.mem 0 := by
  refine ⟨?_, ?_⟩
  · rintro ⟨s', h, -⟩
    exact recvBranch_fill (by unfold FillDefined; decide) h
  · rintro ⟨s', h, hpres⟩
    have hfill := recvBranch_mem threeClients_connection h
    have hnul := (preserved_of_fill (by unfold FillDefined; decide) hfill).1 hpres (by decide)
    exact absurd hnul (by decide +kernel)

end Branch

end RingDB.Network
