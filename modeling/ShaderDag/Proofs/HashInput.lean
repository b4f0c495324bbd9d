import ShaderDag.Glsl.Stage
import ShaderDag.Proofs.Record

/-!
# What is hashed can be read in one way

The fields of a record stand next to each other without any mark between them.  The first byte tells which
fields follow, and each of them has a fixed width or comes behind its length.  So a record can be cut off the
front of longer bytes, whatever the bytes of its name are, and two records with the same bytes are one record.

* `RecordHead`, `NodeRecord` — the fields of a record, with names that are any bytes;
* `NodeRecord.bytes_ofNode` — the bytes of a node are those of its record;
* `RecordHead.payload_append_inj`, `childBytes_append_inj` — where a payload and the children end;
* `NodeRecord.bytes_append_inj` — a record is read back from the front of longer bytes;
* `hashInputs_unambiguous` — records and pairs of source texts are determined by the bytes that are hashed.
-/

namespace ShaderDag

/-! ### Records -/

/-- What a record says of an operation apart from its children. -/
inductive RecordHead where
  | operator (op : Operator)
  | call (name : List UInt8)
  | construct
  | varying
  | attribute (name : List UInt8)
  | uniform (name : List UInt8)
  | literal (bits : UInt32)
deriving DecidableEq, Repr

namespace RecordHead

/-- The number of the operation. -/
def tag : RecordHead → UInt8
  | .operator _ => 0
  | .call _ => 1
  | .construct => 2
  | .varying => 3
  | .attribute _ => 4
  | .uniform _ => 5
  | .literal _ => 6

/-- The name of a function or of an input; the other operations have none. -/
def name : RecordHead → List UInt8
  | .call name | .attribute name | .uniform name => name
  | .operator _ | .construct | .varying | .literal _ => []

/-- The bytes between the kind and the children. -/
def payload : RecordHead → List UInt8
  | .operator op => [op.tag]
  | .call name | .attribute name | .uniform name => littleEndian 8 name.length ++ name
  | .construct | .varying => []
  | .literal bits => littleEndian 4 bits.toNat

/-- What the record of a node says of its operation. -/
def ofNode {α : Type} : Node α → RecordHead
  | .operator op _ _ => .operator op
  | .call function _ => .call (utf8Bytes function.name)
  | .construct _ => .construct
  | .varying _ => .varying
  | .attribute name => .attribute (utf8Bytes name)
  | .uniform name => .uniform (utf8Bytes name)
  | .literal value => .literal value.bits

end RecordHead

/-- The fields of a record, with any number of children whatever the operation is. -/
structure NodeRecord where
  head : RecordHead
  kind : Kind
  children : List Digest
deriving DecidableEq, Repr

namespace NodeRecord

/-- The bytes of a record. -/
def bytes (r : NodeRecord) : List UInt8 :=
  r.head.tag :: r.kind.tag :: (r.head.payload ++
    (littleEndian 4 r.children.length ++ r.children.flatMap Digest.bytes))

/-- The lengths that a record writes fit in the bytes that it has for them. -/
structure Fits (r : NodeRecord) : Prop where
  name : r.head.name.length < 2 ^ 64
  children : r.children.length < 2 ^ 32

/-- The record of a node of a kind. -/
def ofNode (kind : Kind) (n : Node Digest) : NodeRecord := ⟨.ofNode n, kind, n.children⟩

/-- The bytes of a node are those of its record. -/
theorem bytes_ofNode (kind : Kind) (n : Node Digest) : (ofNode kind n).bytes = n.record kind := by
  cases n <;> simp [bytes, ofNode, RecordHead.ofNode, RecordHead.tag, RecordHead.payload,
    Node.record, Node.tag,
    Node.payload, countedText]

end NodeRecord

/-! ### Where the fields end -/

/-- Two heads with one number are read with the same layout. -/
theorem RecordHead.payload_append_inj {h h' : RecordHead} {u v : List UInt8} (tags : h.tag = h'.tag)
    (fits : h.name.length < 2 ^ 64) (fits' : h'.name.length < 2 ^ 64)
    (same : h.payload ++ u = h'.payload ++ v) : h = h' ∧ u = v := by
  cases h <;> cases h' <;> try cases tags
  case operator.operator op op' =>
    obtain ⟨symbol, rest⟩ := List.cons.inj same
    exact ⟨congrArg _ (Operator.tag_injective symbol), rest⟩
  case call.call name name' =>
    obtain ⟨names, rest⟩ := counted_append_inj fits fits' same
    exact ⟨congrArg _ names, rest⟩
  case construct.construct => exact ⟨rfl, same⟩
  case varying.varying => exact ⟨rfl, same⟩
  case attribute.attribute name name' =>
    obtain ⟨names, rest⟩ := counted_append_inj fits fits' same
    exact ⟨congrArg _ names, rest⟩
  case uniform.uniform name name' =>
    obtain ⟨names, rest⟩ := counted_append_inj fits fits' same
    exact ⟨congrArg _ names, rest⟩
  case literal.literal bits bits' =>
    obtain ⟨numbers, rest⟩ := littleEndian_append_inj same
    have equal := littleEndian_inj bits.toNat_lt bits'.toNat_lt numbers
    exact ⟨congrArg _ (UInt32.toNat_inj.1 equal), rest⟩

theorem length_flatMap_bytes (ds : List Digest) : (ds.flatMap Digest.bytes).length = 16 * ds.length := by
  induction ds with
  | nil => rfl
  | cons d ds ih =>
    rw [List.flatMap_cons, List.length_append, d.length_bytes, ih, List.length_cons]
    omega

/-- The children end where their number says. -/
theorem childBytes_append_inj {ds es : List Digest} {u v : List UInt8} (fits : ds.length < 2 ^ 32)
    (fits' : es.length < 2 ^ 32)
    (same : littleEndian 4 ds.length ++ ds.flatMap Digest.bytes ++ u =
      littleEndian 4 es.length ++ es.flatMap Digest.bytes ++ v) : ds = es ∧ u = v := by
  rw [List.append_assoc, List.append_assoc] at same
  obtain ⟨counts, rest⟩ := littleEndian_append_inj same
  have count : ds.length = es.length := littleEndian_inj fits fits' counts
  obtain ⟨digests, rest⟩ := List.append_inj rest (by rw [length_flatMap_bytes, length_flatMap_bytes, count])
  exact ⟨flatMap_bytes_inj digests, rest⟩

/-- **A record is read back from the front of longer bytes.** -/
theorem NodeRecord.bytes_append_inj {r s : NodeRecord} {u v : List UInt8} (fits : r.Fits) (fits' : s.Fits)
    (same : r.bytes ++ u = s.bytes ++ v) : r = s ∧ u = v := by
  obtain ⟨head, kind, children⟩ := r
  obtain ⟨head', kind', children'⟩ := s
  simp only [bytes, List.cons_append, List.append_assoc, List.cons.injEq] at same
  obtain ⟨tags, kinds, rest⟩ := same
  obtain ⟨heads, behind⟩ := RecordHead.payload_append_inj tags fits.name fits'.name rest
  rw [← List.append_assoc, ← List.append_assoc] at behind
  obtain ⟨digests, last⟩ := childBytes_append_inj fits.children fits'.children behind
  have same_children : children = children' := digests
  exact ⟨by rw [heads, Kind.tag_injective kinds, same_children], last⟩

/-- The texts of a pair, of which the first one ends where its length says. -/
theorem pairRecord_inj {vertex fragment vertex' fragment' : String}
    (fits : (utf8Bytes vertex).length < 2 ^ 64)
    (fits' : (utf8Bytes vertex').length < 2 ^ 64)
    (same : pairRecord vertex fragment = pairRecord vertex' fragment') :
    vertex = vertex' ∧ fragment = fragment' := by
  obtain ⟨first, rest⟩ := countedText_append_inj fits fits' same
  exact ⟨first, countedText_injective rest⟩

/-- **What is hashed determines what it was made of.**  The digest of a node is the hash of the bytes of its
record, and records whose lengths fit have the same bytes only if they are the same: the operation, the kind,
the operator, the bytes of the name or the bits of the constant, and all digests of children.  The nodes are
then the same, too.  The fingerprint of a pair is the hash of its two texts, each behind its length, and pairs
whose lengths fit have the same bytes only if both texts are the same. -/
theorem hashInputs_unambiguous :
    (∀ (kind : Kind) (n : Node Digest), n.digest kind = digestOf (NodeRecord.ofNode kind n).bytes) ∧
    (∀ r s : NodeRecord, r.Fits → s.Fits → r.bytes = s.bytes → r = s) ∧
    (∀ (kind kind' : Kind) (n m : Node Digest),
      (NodeRecord.ofNode kind n).bytes = (NodeRecord.ofNode kind' m).bytes → kind = kind' ∧ n = m) ∧
    (∀ pair : ShaderPair, pair.fingerprint = digestOf (pairRecord pair.vertex.text pair.fragment.text)) ∧
    ∀ vertex fragment vertex' fragment' : String, (utf8Bytes vertex).length < 2 ^ 64 →
      (utf8Bytes vertex').length < 2 ^ 64 → pairRecord vertex fragment = pairRecord vertex' fragment' →
        vertex = vertex' ∧ fragment = fragment' := by
  refine ⟨fun kind n => ?_, fun r s fits fits' same => ?_, fun kind kind' n m same => ?_, fun _ => rfl,
    fun _ _ _ _ => pairRecord_inj⟩
  · rw [NodeRecord.bytes_ofNode]
    rfl
  · have longer : r.bytes ++ [] = s.bytes ++ [] := congrArg (· ++ []) same
    exact (NodeRecord.bytes_append_inj fits fits' longer).1
  · rw [NodeRecord.bytes_ofNode, NodeRecord.bytes_ofNode] at same
    exact Node.record_inj same

/-- The record of a call of `sin`, written field by field and taken from the node, and a pair whose first text
is empty. -/
theorem sine_unambiguous :
    let written : NodeRecord := ⟨.call [115, 105, 110], .float, [⟨0, 7⟩]⟩
    let taken : NodeRecord := .ofNode .float (.call .sin [⟨0, 7⟩])
    let text := String.ofList ['s', 'i', 'n']
    (written.Fits ∧ taken.Fits ∧ written.bytes = taken.bytes ∧ written = taken) ∧
      (pairRecord "" "sin" = pairRecord "" text ∧ "sin" = text) := by
  intro written taken text
  obtain ⟨-, records, -, -, pairs⟩ := hashInputs_unambiguous
  have fits : written.Fits := ⟨by decide, by decide⟩
  have fits' : taken.Fits := ⟨by decide, by decide⟩
  have bytes : written.bytes = taken.bytes := by decide +kernel
  have texts : pairRecord "" "sin" = pairRecord "" text := by decide +kernel
  exact ⟨⟨fits, fits', bytes, records _ _ fits fits' bytes⟩, texts,
    (pairs "" "sin" "" text (by decide) (by decide) texts).2⟩

end ShaderDag
