import Mathlib.Algebra.Group.Nat.Defs
import ShaderDag.Graph.Node

/-!
# Records decode in one way

In the bytes that stand for a node, numbers and digests have fixed widths and a text comes behind its length.
So two nodes with the same bytes are the same node: nothing is lost before the bytes are hashed.

* `littleEndian_inj` — a number that fits is determined by its bytes;
* `counted_append_inj`, `countedText_append_inj` — counted bytes and texts end where their length says;
* `Digest.bytes_injective`, `childBytes_inj` — digests are cut out by their width;
* `Node.record_inj` — the bytes of a node determine its kind, its operation and its children.
-/

namespace ShaderDag

/-! ### Numbers -/

@[simp] theorem length_littleEndian (count n : Nat) : (littleEndian count n).length = count := by
  induction count generalizing n with
  | zero => rfl
  | succ count ih => rw [littleEndian, List.length_cons, ih]

theorem littleEndian_inj {count m n : Nat} (hm : m < 256 ^ count) (hn : n < 256 ^ count)
    (same : littleEndian count m = littleEndian count n) : m = n := by
  induction count generalizing m n with
  | zero => omega
  | succ count ih =>
    obtain ⟨byte, rest⟩ := List.cons.inj same
    have low : m % 256 = n % 256 := congrArg UInt8.toNat byte
    have high : m / 256 = n / 256 := ih (by omega) (by omega) rest
    omega

/-- A number in a known count of bytes is read back from the front of longer bytes. -/
theorem littleEndian_append_inj {count m n : Nat} {u v : List UInt8}
    (same : littleEndian count m ++ u = littleEndian count n ++ v) :
    littleEndian count m = littleEndian count n ∧ u = v :=
  List.append_inj same (by rw [length_littleEndian, length_littleEndian])

/-! ### Texts -/

theorem utf8Bytes_injective : Function.Injective utf8Bytes := by
  intro s t same
  refine String.toByteArray_inj.1 (ByteArray.ext ?_)
  exact Array.toList_inj.1 same

theorem countedText_injective : Function.Injective countedText := by
  intro s t same
  exact utf8Bytes_injective (littleEndian_append_inj same).2

/-- Bytes behind their number are read back from the front of longer bytes, if the number fits. -/
theorem counted_append_inj {b c u v : List UInt8} (hb : b.length < 256 ^ 8) (hc : c.length < 256 ^ 8)
    (same : littleEndian 8 b.length ++ b ++ u = littleEndian 8 c.length ++ c ++ v) : b = c ∧ u = v := by
  rw [List.append_assoc, List.append_assoc] at same
  obtain ⟨counts, rest⟩ := littleEndian_append_inj same
  exact List.append_inj rest (littleEndian_inj hb hc counts)

/-- A counted text whose length fits is read back from the front of longer bytes. -/
theorem countedText_append_inj {s t : String} {u v : List UInt8} (hs : (utf8Bytes s).length < 256 ^ 8)
    (ht : (utf8Bytes t).length < 256 ^ 8) (same : countedText s ++ u = countedText t ++ v) :
    s = t ∧ u = v := by
  obtain ⟨bytes, rest⟩ := counted_append_inj hs ht same
  exact ⟨utf8Bytes_injective bytes, rest⟩

/-! ### Digests -/

@[simp] theorem Digest.length_bytes (d : Digest) : d.bytes.length = 16 := by
  rw [bytes, List.length_append, length_littleEndian, length_littleEndian]

theorem Digest.bytes_ne_nil (d : Digest) : d.bytes ≠ [] := by
  intro none
  have := d.length_bytes
  rw [none] at this
  cases this

theorem Digest.bytes_injective : Function.Injective Digest.bytes := by
  rintro ⟨high, low⟩ ⟨high', low'⟩ same
  obtain ⟨lows, highs⟩ := littleEndian_append_inj same
  have word : ∀ {x y : UInt64}, littleEndian 8 x.toNat = littleEndian 8 y.toNat → x = y :=
    fun {x y} h => UInt64.toNat_inj.1 (littleEndian_inj x.toNat_lt y.toNat_lt h)
  have low_eq : low = low' := word lows
  have high_eq : high = high' := word highs
  rw [low_eq, high_eq]

theorem flatMap_bytes_inj {ds es : List Digest}
    (same : ds.flatMap Digest.bytes = es.flatMap Digest.bytes) : ds = es := by
  induction ds generalizing es with
  | nil =>
    cases es with
    | nil => rfl
    | cons e es => exact absurd (List.append_eq_nil_iff.1 same.symm).1 e.bytes_ne_nil
  | cons d ds ih =>
    cases es with
    | nil => exact absurd (List.append_eq_nil_iff.1 same).1 d.bytes_ne_nil
    | cons e es =>
      obtain ⟨first, rest⟩ := List.append_inj same (by rw [Digest.length_bytes, Digest.length_bytes])
      rw [Digest.bytes_injective first, ih rest]

/-- The last two fields of a record.  Their length alone tells how many digests there are. -/
theorem childBytes_inj {ds es : List Digest}
    (same : littleEndian 4 ds.length ++ ds.flatMap Digest.bytes =
      littleEndian 4 es.length ++ es.flatMap Digest.bytes) : ds = es :=
  flatMap_bytes_inj (littleEndian_append_inj same).2

/-! ### Nodes -/

theorem Kind.tag_injective : Function.Injective Kind.tag := by
  intro a b same
  cases a <;> cases b <;> first | rfl | cases same

theorem Operator.tag_injective : Function.Injective Operator.tag := by
  intro a b same
  cases a <;> cases b <;> first | rfl | cases same

theorem Builtin.name_injective : Function.Injective Builtin.name := by
  intro f g same
  have named := Builtin.ofName?_name f
  rw [same, Builtin.ofName?_name] at named
  exact (Option.some.inj named).symm

theorem Builtin.length_name (f : Builtin) : (utf8Bytes f.name).length < 256 ^ 8 := by
  cases f <;> decide

namespace Node

/-- **The bytes of a node determine it.**  The first byte tells the operation, so two records are read
with the same layout. -/
theorem record_inj {kind kind' : Kind} {n m : Node Digest} (same : record kind n = record kind' m) :
    kind = kind' ∧ n = m := by
  simp only [record, List.cons.injEq, List.append_assoc] at same
  obtain ⟨tags, kinds, rest⟩ := same
  refine ⟨Kind.tag_injective kinds, ?_⟩
  cases n <;> cases m <;> try cases tags
  case operator.operator op l r op' l' r' =>
    obtain ⟨symbols, rest⟩ := List.cons.inj rest
    cases childBytes_inj rest
    rw [Operator.tag_injective symbols]
  case call.call f args g args' =>
    obtain ⟨names, rest⟩ := countedText_append_inj f.length_name g.length_name rest
    have children : args = args' := childBytes_inj rest
    rw [Builtin.name_injective names, children]
  case construct.construct args args' =>
    have children : args = args' := childBytes_inj rest
    rw [children]
  case varying.varying inner inner' =>
    cases childBytes_inj rest
    rfl
  case attribute.attribute name name' =>
    rw [countedText_injective (List.append_cancel_right rest)]
  case uniform.uniform name name' =>
    rw [countedText_injective (List.append_cancel_right rest)]
  case literal.literal value value' =>
    obtain ⟨bits⟩ := value
    obtain ⟨bits'⟩ := value'
    have numbers := littleEndian_inj bits.toNat_lt bits'.toNat_lt (List.append_cancel_right rest)
    have same : bits = bits' := UInt32.toNat_inj.1 numbers
    rw [same]

end Node

end ShaderDag
