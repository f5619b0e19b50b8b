import MerkleStore.Record.Binary

/-!
# Records are read back

A reader reads a value from bytes if it takes just these bytes off the front of any
byte string and gives the value (`Reader.Reads`). Readers in sequence read from bytes
in sequence, so the binary form of every field, and of every list of records whose
numbers fit, is read back (`readList_writeList`).
-/

namespace MerkleStore.Record

namespace Reader

variable {α β : Type} {r : Reader α} {a : α} {b : β} {bs bs' : Bytes}

/-- The reader takes the bytes off the front of any byte string and gives the value. -/
def Reads (r : Reader α) (bs : Bytes) (a : α) : Prop := ∀ rest, r (bs ++ rest) = .ok (a, rest)

theorem Reads.pure (a : α) : (Pure.pure a : Reader α).Reads [] a := fun _ => rfl

/-- One reader after another reads from bytes one after the other. -/
theorem Reads.bind {next : α → Reader β} (hr : r.Reads bs a) (hnext : (next a).Reads bs' b) :
    (r >>= next).Reads (bs ++ bs') b := by
  intro rest
  simp only [Bind.bind, andThen, List.append_assoc, hr (bs' ++ rest)]
  exact hnext rest

/-- A reader whose value is put into another one reads from the same bytes. -/
theorem Reads.map {f : α → β} (hr : r.Reads bs a) :
    (r >>= fun a => Pure.pure (f a)).Reads bs (f a) := by
  have hmap : (r >>= fun a => Pure.pure (f a)).Reads (bs ++ []) (f a) := hr.bind (.pure (f a))
  rwa [List.append_nil] at hmap

theorem reads_take (bs : Bytes) : (take bs.length).Reads bs bs := by
  intro rest
  simp [take]

theorem reads_number {width n : Nat} (h : n < Nat.pow 256 width) :
    (number width).Reads (littleEndian width n) n := by
  have htake := reads_take (littleEndian width n)
  rw [length_littleEndian] at htake
  have := htake.map (f := ofLittleEndian)
  rwa [ofLittleEndian_littleEndian h] at this

theorem reads_index {n : Nat} (h : n < 4) : (number 4).Reads (writeIndex n) n :=
  reads_number (Nat.lt_of_lt_of_le h (by decide))

theorem reads_word {n : Nat} (h : n < wordBound) : (number 8).Reads (writeNumber n) n :=
  reads_number (Nat.lt_of_lt_of_le h (by decide))

theorem reads_bytes (h : bs.length < wordBound) : bytes.Reads (writeBytes bs) bs :=
  (reads_word h).bind (reads_take bs)

theorem reads_bytes32 (b : Bytes32) : bytes32.Reads b.toList b := by
  intro rest
  have htake : (b.toList ++ rest).take 32 = b.toList := by
    rw [List.take_left' b.length_eq]
  have hdrop : (b.toList ++ rest).drop 32 = rest := by
    rw [List.drop_left' b.length_eq]
  simp [bytes32, htake, hdrop]

theorem reads_hash (h : Hash) : hash.Reads (writeHash h) h := (reads_bytes32 h.bytes).map

theorem reads_treeId (t : TreeId) : treeId.Reads (writeTreeId t) t := (reads_bytes32 t.bytes).map

theorem reads_option {write : α → Bytes} {o : Option α}
    (h : ∀ a, o = some a → r.Reads (write a) a) :
    (option r).Reads (writeOption write o) o := by
  cases o with
  | none => exact (reads_number (show 0 < Nat.pow 256 1 by decide)).bind (.pure none)
  | some a => exact (reads_number (show 1 < Nat.pow 256 1 by decide)).bind (h a rfl).map

theorem reads_status (s : Status) : status.Reads (writeStatus s) s := by
  cases s with
  | pending => exact (reads_index (n := 0) (by decide)).bind (.pure Status.pending)
  | committed => exact (reads_index (n := 1) (by decide)).bind (.pure Status.committed)

theorem reads_side (s : Side) : side.Reads (writeSide s) s := by
  cases s with
  | left => exact (reads_index (n := 0) (by decide)).bind (.pure Side.left)
  | right => exact (reads_index (n := 1) (by decide)).bind (.pure Side.right)

theorem reads_node {n : Node} (hf : (Record.node n).Fits) : node.Reads (writeNode n) n := by
  cases n with
  | terminal n =>
      simp only [writeNode, List.append_assoc]
      exact (reads_index (n := 0) (by decide)).bind
        ((reads_hash n.hash).bind ((reads_bytes hf.1).bind (reads_bytes hf.2).map))
  | internal n =>
      simp only [writeNode, List.append_assoc]
      exact (reads_index (n := 1) (by decide)).bind
        ((reads_hash n.hash).bind ((reads_hash n.left).bind (reads_hash n.right).map))

theorem reads_root {r : Root} (hf : (Record.root r).Fits) : root.Reads (writeRoot r) r := by
  simp only [writeRoot, List.append_assoc]
  exact (reads_treeId r.tree).bind ((reads_word hf).bind
    ((reads_option fun h _ => reads_hash h).bind (reads_status r.status).map))

theorem reads_operation {t : TreeId} {g : Nat} {o : Operation}
    (hf : (Record.operation t g o).Fits) : operation.Reads (writeOperation o) o := by
  cases o with
  | insertion d =>
      simp only [writeOperation, List.append_assoc]
      exact (reads_index (n := 0) (by decide)).bind ((reads_hash d.root).bind
        ((reads_bytes hf.2.1).bind ((reads_bytes hf.2.2).bind
          ((reads_option fun h _ => reads_hash h).bind
            ((reads_option fun s _ => reads_side s).bind (reads_status d.status).map)))))
  | deletion d =>
      simp only [writeOperation, List.append_assoc]
      exact (reads_index (n := 1) (by decide)).bind
        ((reads_option fun h _ => reads_hash h).bind
          ((reads_bytes hf.2).bind (reads_status d.status).map))

theorem Fits.generation {t : TreeId} {g : Nat} {o : Operation}
    (hf : (Record.operation t g o).Fits) : g < wordBound := by
  cases o <;> exact hf.1

theorem reads_record {r : Record} (hf : r.Fits) : record.Reads (write r) r := by
  cases r with
  | node n =>
      exact (reads_index (n := 0) (by decide)).bind (reads_node hf).map
  | root r =>
      exact (reads_index (n := 1) (by decide)).bind (reads_root hf).map
  | operation t g o =>
      simp only [write, List.append_assoc]
      exact (reads_index (n := 2) (by decide)).bind
        ((reads_treeId t).bind ((reads_word (Fits.generation hf)).bind (reads_operation hf).map))
  | status t g s =>
      simp only [write, List.append_assoc]
      exact (reads_index (n := 3) (by decide)).bind
        ((reads_treeId t).bind ((reads_word hf).bind (reads_status s).map))

theorem reads_many {write : α → Bytes} {as : List α} (h : ∀ a ∈ as, r.Reads (write a) a) :
    (many r as.length).Reads (as.flatMap write) as := by
  induction as with
  | nil => exact .pure []
  | cons a as ih =>
      exact (h a List.mem_cons_self).bind
        (ih fun a ha => h a (List.mem_cons_of_mem _ ha)).map

end Reader

/-- A list of records is read back if its numbers fit in eight bytes. -/
theorem readList_writeList {rs : List Record} (hlength : rs.length < wordBound)
    (hf : ∀ r ∈ rs, r.Fits) : readList (writeList rs) = .ok rs := by
  have hreads : Reader.records.Reads (writeList rs) rs :=
    (Reader.reads_word hlength).bind (Reader.reads_many fun r hr => Reader.reads_record (hf r hr))
  have := hreads []
  rw [List.append_nil] at this
  rw [readList, this]

/-- A record is written down somewhere in a list with it. -/
theorem write_infix_flatMap {r : Record} {rs : List Record} (h : r ∈ rs) :
    write r <:+: rs.flatMap write :=
  List.flatMap_def ▸ List.infix_of_mem_flatten (List.mem_map_of_mem h)

end MerkleStore.Record
