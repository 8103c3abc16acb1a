/-
  Pagedb.Catalog.Codec — the byte layout of catalog and history rows
  (`catalog/codec.rs`, and the history row of `txn/db/core.rs`).

  Keys are compared as byte strings, so the big-endian key of a history row
  keeps the order of the commit ids.
-/
import Pagedb.Lib.Bytes
import Pagedb.Txn.History
import Pagedb.Txn.Segment

namespace Pagedb

open Lib List

/-! ## §1. Catalog rows -/

/-- `Catalog::quota_key`. -/
def quotaKey (realm : RealmId) : Bytes := 0x00 :: beBytes 16 realm

/-- `Catalog::counter_key`. -/
def counterKey (name : Bytes) : Option Bytes :=
  if name.length > MAX_SEGMENT_NAME_LEN then none else some (0x02 :: name)

/-- `Catalog::encode_counter`. -/
def encodeCounter (value : Nat) : Bytes := leBytes 8 value

/-- `Catalog::decode_counter`. -/
def decodeCounter (bytes : Bytes) : Option Nat :=
  if bytes.length = 8 then some (ofLeBytes bytes) else none

/-- `RealmQuotas`. -/
structure RealmQuotas where
  maxPages : Option Nat
  maxDirtyPages : Option Nat
  maxScratchPages : Option Nat
  maxSegmentBytes : Option Nat
  deriving DecidableEq, Repr

/-- One bit of the presence mask. -/
def RealmQuotas.bit (value : Option Nat) (bit : Nat) : Nat := if value.isSome then 2 ^ bit else 0

/-- `Catalog::encode_realm_quotas`. -/
def encodeRealmQuotas (q : RealmQuotas) : Bytes :=
  UInt8.ofNat (RealmQuotas.bit q.maxPages 0 + RealmQuotas.bit q.maxDirtyPages 1
      + RealmQuotas.bit q.maxScratchPages 2 + RealmQuotas.bit q.maxSegmentBytes 3)
    :: (leBytes 8 (q.maxPages.getD 0) ++ leBytes 8 (q.maxDirtyPages.getD 0)
      ++ leBytes 8 (q.maxScratchPages.getD 0) ++ leBytes 8 (q.maxSegmentBytes.getD 0))

/-- `SEGMENT_META_LEN`. -/
def SEGMENT_META_LEN : Nat := 94

/-! ## §2. History rows -/

/-- The key of a history row. -/
def historyKey (commit : CommitId) : Bytes := beBytes 8 commit

/-- `history_row_commit`. -/
def historyRowCommit (key : Bytes) : Option CommitId :=
  if key.length = 8 then some (ofBeBytes key) else none

/-- `encode_commit_meta`. -/
def encodeCommitMeta (m : CommitHistoryMeta) : Bytes :=
  leBytes 8 m.activeRootPageId ++ (leBytes 8 m.catalogRootPageId
    ++ (leBytes 8 m.freeListRootPageId ++ (leBytes 8 m.nextPageId ++ leBytes 8 m.unixSeconds)))

/-- The integer at an offset. -/
def readU64 (bytes : Bytes) (off : Nat) : Nat := ofLeBytes ((bytes.drop off).take 8)

/-- `decode_commit_meta`. -/
def decodeCommitMeta (bytes : Bytes) : Option CommitHistoryMeta :=
  if bytes.length < 40 then none
  else some {
    activeRootPageId := readU64 bytes 0
    catalogRootPageId := readU64 bytes 8
    freeListRootPageId := readU64 bytes 16
    nextPageId := readU64 bytes 24
    unixSeconds := readU64 bytes 32 }

/-- The row's integers are `u64`. -/
def CommitHistoryMeta.Fits (m : CommitHistoryMeta) : Prop :=
  m.activeRootPageId ≤ U64_MAX ∧ m.catalogRootPageId ≤ U64_MAX ∧ m.freeListRootPageId ≤ U64_MAX
    ∧ m.nextPageId ≤ U64_MAX ∧ m.unixSeconds ≤ U64_MAX

theorem historyRowCommit_historyKey {commit : CommitId} (h : commit ≤ U64_MAX) :
    historyRowCommit (historyKey commit) = some commit := by
  have hlt : commit < 256 ^ 8 := Nat.lt_of_le_of_lt h (by decide)
  unfold historyRowCommit historyKey
  rw [if_pos (beBytes_length 8 commit), ofBeBytes_beBytes_of_lt hlt]

theorem readU64_head {n : Nat} (h : n ≤ U64_MAX) (rest : Bytes) :
    readU64 (leBytes 8 n ++ rest) 0 = n := by
  have hlt : n < 256 ^ 8 := Nat.lt_of_le_of_lt h (by decide)
  unfold readU64
  rw [drop_zero, take_left' (leBytes_length 8 n), ofLeBytes_leBytes_of_lt hlt]

theorem readU64_skip (n : Nat) (rest : Bytes) (off : Nat) :
    readU64 (leBytes 8 n ++ rest) (8 + off) = readU64 rest off := by
  unfold readU64
  rw [← drop_drop, drop_left' (leBytes_length 8 n)]

/-- A row is read back as it was written. -/
theorem decodeCommitMeta_encodeCommitMeta {m : CommitHistoryMeta} (h : m.Fits) :
    decodeCommitMeta (encodeCommitMeta m) = some m := by
  obtain ⟨hactive, hcatalog, hfree, hnext, hunix⟩ := h
  have hlen : ¬ (encodeCommitMeta m).length < 40 := by
    unfold encodeCommitMeta
    simp
  unfold decodeCommitMeta
  rw [if_neg hlen]
  unfold encodeCommitMeta
  rw [readU64_head hactive]
  rw [readU64_skip _ _ 0, readU64_head hcatalog]
  rw [readU64_skip _ _ 8, readU64_skip _ _ 0, readU64_head hfree]
  rw [readU64_skip _ _ 16, readU64_skip _ _ 8, readU64_skip _ _ 0, readU64_head hnext]
  rw [readU64_skip _ _ 24, readU64_skip _ _ 16, readU64_skip _ _ 8, readU64_skip _ _ 0]
  rw [← append_nil (leBytes 8 m.unixSeconds), readU64_head hunix]

end Pagedb
