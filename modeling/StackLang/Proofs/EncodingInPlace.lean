import StackLang.Proofs.ImageRoundTrip
import StackLang.Proofs.NameQueue

namespace StackLang.Image

/-- Writes a number of four bytes over what stands at `pos`. -/
def overwrite (pos : Nat) (v : Int) (b : Bytes) : Bytes :=
  b.take pos ++ Word.put32 (b.drop pos) v

/-- Appends a compiled program to `buffer`, with the records in the order of `names`. -/
def encodeInPlace (templates : NameMap Bytes) (buffer : Bytes) (ns : Namespace)
    (names : List Bytes) :
    Result Bytes := do
  let start := buffer ++ header 0
  let filled ← names.foldlM (fun b name =>
    (encodeRecord templates name ((ns.get? name).getD .unset)).map (b ++ ·)) start
  let size := filled.length - start.length
  if size > maxBody then .error (.bare (.tooBig size))
  else .ok (overwrite (buffer.length + magic.length) size filled)

theorem foldlM_append_eq {α ε : Type} (f : α → Except ε Bytes) (l : List α) (b : Bytes) :
    l.foldlM (fun b x => (f x).map (b ++ ·)) b = (l.mapM f).map fun parts =>
      b ++ parts.flatten := by
  induction l generalizing b with
  | nil => simp [pure, Except.pure, Except.map]
  | cons x rest ih =>
    rw [List.foldlM_cons, List.mapM_cons]
    cases f x with
    | error e => rfl
    | ok part =>
      have others :
          (Except.ok (b ++ part) >>= fun b => rest.foldlM (fun b x => (f x).map (b ++ ·)) b) =
          (rest.mapM f).map fun parts => b ++ part ++ parts.flatten := ih (b ++ part)
      rw [Except.map, others]
      cases rest.mapM f with
      | error e => rfl
      | ok parts => simp [Except.map, bind, Except.bind, pure, Except.pure]

theorem overwrite_header (buffer body : Bytes) (old new : Int) :
    overwrite (buffer.length + magic.length) new (buffer ++ header old ++ body) =
      buffer ++ header new ++ body := by
  have front : (buffer ++ magic).length = buffer.length + magic.length := List.length_append
  have split : buffer ++ header old ++ body = (buffer ++ magic) ++ (Word.encode32 old ++ body) := by
    simp [header]
  have field : (Word.encode32 old).length = 4 := Word.length_encode 4 _
  rw [overwrite, split, ← front, List.take_left, List.drop_left, Word.put32, ← field,
    List.drop_left]
  simp [header]

theorem mapM_keys_eq (templates : NameMap Bytes) (ns : Namespace) :
    ns.keys.mapM (fun name => encodeRecord templates name ((ns.get? name).getD .unset)) =
      ns.entries.mapM fun e => encodeRecord templates e.1 e.2 := by
  have found : ∀ e ∈ ns.entries, ns.get? e.1 = some e.2 :=
    fun _ mem => NameMap.get?_eq_some_iff.mpr mem
  rw [NameMap.keys, List.mapM_map]
  generalize ns.entries = l at found
  induction l with
  | nil => rfl
  | cons e rest ih =>
    rw [List.mapM_cons, List.mapM_cons, ih fun e mem => found e (List.mem_cons_of_mem _ mem)]
    simp [found e List.mem_cons_self]

theorem encodeInPlace_keys (templates : NameMap Bytes) (buffer : Bytes) (ns : Namespace) :
    encodeInPlace templates buffer ns ns.keys = encode templates buffer ns := by
  rw [encodeInPlace, encode]
  simp only [foldlM_append_eq, mapM_keys_eq]
  cases ns.entries.mapM fun e => encodeRecord templates e.1 e.2 with
  | error e => rfl
  | ok records =>
    have size : (buffer ++ header 0 ++ records.flatten).length - (buffer ++ header 0).length =
        records.flatten.length := by
      rw [List.length_append]
      omega
    simp only [Except.map, bind, Except.bind, size, overwrite_header]

/-- In whatever order a queue has been filled with the names, the outcome is the same. -/
theorem encodeInPlace_of_drained {templates : NameMap Bytes} {buffer : Bytes} {ns : Namespace}
    {order names : List Bytes} (filled : order.Perm ns.keys)
    (drained : NameMap.Drained order names) :
    encodeInPlace templates buffer ns names = encode templates buffer ns := by
  rw [(NameMap.drained_iff filled).mp drained, encodeInPlace_keys]

end StackLang.Image
