import LockReplica.Ascending.Lemmas
import LockReplica.Event

/-!
# Rows in the order of descriptors

The descriptor of a row is the name of its table, a separator and the key of the row, and descriptors are compared as
bytes.

* **Pairs** (`Descriptor.compare_row`): if names of tables do not contain the separator, then it is below all of their
  bytes, so that rows are ordered by table first and by key second. The keys may contain any bytes.
* **Blocks** (`Descriptor.rowsTogether_of_pairwise`): the rows of a table are the descriptors that begin with its name
  and the separator, and descriptors with a common beginning lie together.
-/

namespace LockReplica

open Std

namespace Descriptor

/-! ## Pairs -/

theorem separator_lt {b : UInt8} (hb : b ≠ separator) : compare separator b = .lt := by
  refine compare_eq_lt.2 (UInt8.lt_iff_toNat_lt.2 (Nat.pos_of_ne_zero fun h => hb ?_))
  exact UInt8.toNat_inj.1 h

theorem separator_lt_of_mem_utf8 {table : String} (h : '\x00' ∉ table.toList) :
    ∀ b ∈ utf8 table, compare separator b = .lt := by
  intro b hb
  refine separator_lt ?_
  rintro rfl
  exact h (zero_mem_utf8_iff.1 hb)

/-- Rows are ordered by table first and by key second. -/
theorem compare_row {table table' : String} (h : '\x00' ∉ table.toList) (h' : '\x00' ∉ table'.toList)
    (key key' : List UInt8) :
    compare (row table key) (row table' key') = (compare (utf8 table) (utf8 table')).then (compare key key') :=
  compare_append_cons (separator_lt_of_mem_utf8 h) (separator_lt_of_mem_utf8 h') key key'

/-- A row determines its table and its key. -/
theorem row_eq_row_iff {table table' : String} (h : '\x00' ∉ table.toList) (h' : '\x00' ∉ table'.toList)
    {key key' : List UInt8} : row table key = row table' key' ↔ table = table' ∧ key = key' := by
  rw [← LawfulEqOrd.compare_eq_iff_eq, compare_row h h', Ordering.then_eq_eq, LawfulEqOrd.compare_eq_iff_eq,
    LawfulEqOrd.compare_eq_iff_eq, utf8_inj]

/-! ## Blocks -/

theorem row_eq_append (table : String) (key : List UInt8) : (row table key).bytes = (utf8 table ++ [separator]) ++ key :=
  List.append_cons _ _ _

/-- Rows of one table are ordered by key. -/
theorem compare_row_row (table : String) (key key' : List UInt8) :
    compare (row table key) (row table key') = compare key key' := by
  show compare (row table key).bytes (row table key').bytes = _
  rw [row_eq_append, row_eq_append, compare_append_append]

/-- A descriptor that is no row of a table lies below or above all of its rows. -/
theorem forall_lt_row_or_exists_eq_row_or_forall_row_lt (table : String) (d : Descriptor) :
    (∀ key, compare d (row table key) = .lt) ∨ (∃ key, d = row table key) ∨ ∀ key, compare (row table key) d = .lt := by
  rcases forall_lt_or_exists_eq_append_or_forall_gt (utf8 table ++ [separator]) d.bytes with hlt | ⟨key, hd⟩ | hgt
  · exact .inl fun key => (congrArg (compare d.bytes) (row_eq_append table key)).trans (hlt key)
  · exact .inr (.inl ⟨key, bytes_inj.1 (hd.trans (row_eq_append table key).symm)⟩)
  · exact .inr (.inr fun key => (congrArg (compare · d.bytes) (row_eq_append table key)).trans (hgt key))

/-- The rows of a table stand together in a listing: first comes what is below all rows of the table, then its rows by
key, and then what is above all of its rows. -/
def RowsTogether (table : String) (ds : List Descriptor) : Prop :=
  ∃ (before : List Descriptor) (keys : List (List UInt8)) (after : List Descriptor),
    ds = before ++ keys.map (row table) ++ after ∧
    (∀ d ∈ before, ∀ key, compare d (row table key) = .lt) ∧
    (keys.Pairwise fun key key' => compare key key' = .lt) ∧
    ∀ d ∈ after, ∀ key, compare (row table key) d = .lt

theorem rowsTogether_of_pairwise {ds : List Descriptor} (h : ds.Pairwise fun d d' => compare d d' = .lt)
    (table : String) : RowsTogether table ds := by
  induction h with
  | nil => exact ⟨[], [], [], rfl, by simp, .nil, by simp⟩
  | @cons d ds hd _ ih =>
    obtain ⟨before, keys, after, rfl, hbefore, hkeys, hafter⟩ := ih
    have hd_before : ∀ e ∈ before, compare d e = .lt := fun e he =>
      hd e (List.mem_append_left _ (List.mem_append_left _ he))
    have hd_row : ∀ key ∈ keys, compare d (row table key) = .lt := fun key hkey =>
      hd _ (List.mem_append_left _ (List.mem_append_right _ (List.mem_map_of_mem hkey)))
    rcases forall_lt_row_or_exists_eq_row_or_forall_row_lt table d with hlt | ⟨key, rfl⟩ | hgt
    · exact ⟨d :: before, keys, after, rfl, List.forall_mem_cons.2 ⟨hlt, hbefore⟩, hkeys, hafter⟩
    · -- what follows a row is not below it
      obtain rfl : before = [] := List.eq_nil_iff_forall_not_mem.2 fun e he =>
        OrientedCmp.not_lt_of_lt (hbefore e he key) (hd_before e he)
      refine ⟨[], key :: keys, after, rfl, by simp, List.pairwise_cons.2 ⟨fun key' hkey' => ?_, hkeys⟩, hafter⟩
      rw [← compare_row_row table]
      exact hd_row key' hkey'
    · -- what follows something above the rows is neither below them nor one of them
      obtain rfl : before = [] := List.eq_nil_iff_forall_not_mem.2 fun e he =>
        OrientedCmp.not_lt_of_lt (TransCmp.lt_trans (hbefore e he []) (hgt [])) (hd_before e he)
      obtain rfl : keys = [] := List.eq_nil_iff_forall_not_mem.2 fun key hkey =>
        OrientedCmp.not_lt_of_lt (hgt key) (hd_row key hkey)
      exact ⟨[], [], d :: after, rfl, by simp, .nil, List.forall_mem_cons.2 ⟨hgt, hafter⟩⟩

end Descriptor

open Descriptor (row RowsTogether)

/-- **Row descriptors embed the order of tables and keys**: where names of tables do not contain the separator, the
descriptors of two rows compare as the names of their tables do, by their bytes, and for one name as their keys do. So
they are equal only if both are, and the rows of a table stand together in every set of descriptors. -/
theorem row_order_embeds :
    (∀ table table' : String, '\x00' ∉ table.toList → '\x00' ∉ table'.toList → ∀ key key' : List UInt8,
      compare (row table key) (row table' key') = (compare (utf8 table) (utf8 table')).then (compare key key') ∧
      (row table key = row table' key' ↔ table = table' ∧ key = key')) ∧
    ∀ (s : DescriptorSet) (table : String), RowsTogether table s.toList :=
  ⟨fun _ _ h h' key key' => ⟨Descriptor.compare_row h h' key key', Descriptor.row_eq_row_iff h h'⟩,
    fun s table => Descriptor.rowsTogether_of_pairwise s.ascending table⟩

/-- A name that begins another one, and keys that contain the separator: rows of the shorter name come first. -/
theorem sample_row_order_embeds :
    '\x00' ∉ "t".toList ∧ '\x00' ∉ "t1".toList ∧
      compare (row "t" [0x31, 0, 2]) (row "t1" [0, 1]) = .lt ∧ row "t" [0x31, 0, 2] ≠ row "t1" [0, 1] := by
  have ht : '\x00' ∉ "t".toList := by decide
  have ht1 : '\x00' ∉ "t1".toList := by decide
  obtain ⟨hcompare, heq⟩ := row_order_embeds.1 "t" "t1" ht ht1 [0x31, 0, 2] [0, 1]
  have htables : compare (utf8 "t") (utf8 "t1") = .lt := by decide
  refine ⟨ht, ht1, ?_, fun h => ?_⟩
  · rw [hcompare, htables]
    rfl
  · exact absurd (heq.1 h).1 (by decide)

-- names that contain the separator take rows from one another
example : row "t\x00a" [] = row "t" [0x61, 0] := by decide

end LockReplica
