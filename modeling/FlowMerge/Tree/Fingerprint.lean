import FlowMerge.Digest.Md5
import FlowMerge.Tree.Basic

namespace FlowMerge

def utf8 (s : String) : List UInt8 := s.toList.flatMap String.utf8EncodeChar

namespace Content

def attributeBytes (e : String × String) : List UInt8 := utf8 e.1 ++ [1] ++ utf8 e.2 ++ [0]

def textBytes : Option String → List UInt8
  | some s => 2 :: utf8 s
  | none => [3]

/-- The bytes that stand for a content. The order of the attributes does not show in them. -/
def bytes (c : Content) : List UInt8 :=
  utf8 c.label ++ [0] ++ c.attributes.sorted.flatMap attributeBytes ++ textBytes c.text

def digest (c : Content) : Digest := .ofBytes c.bytes

end Content

namespace Tree

def fingerprintBytesWithin (t : Tree) : Nat → NodeId → List UInt8
  | 0, _ => []
  | n + 1, id =>
    (t.content id).bytes ++
      ((t.children id).filter fun c ↦ !t.isControlFlow c).flatMap fun c ↦
        4 :: t.fingerprintBytesWithin n c ++ [5]

def fingerprintBytes (t : Tree) (id : NodeId) : List UInt8 := t.fingerprintBytesWithin t.size id

def fingerprint (t : Tree) (id : NodeId) : Digest := .ofBytes (t.fingerprintBytes id)

end Tree

end FlowMerge
