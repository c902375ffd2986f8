import CausalDoc.Document.Basic
import CausalDoc.Value.Json

/- The content of a document as one plain value.

   A reference is replaced by the content of the container it names, at every
   depth. Containers nest without cycles, so no way down passes more containers than
   there are, and that number bounds the descent. Roots appear under their names;
   where roots of different kinds share a name, under their full written forms. -/

namespace CausalDoc

/-- The content of a container that holds nothing. -/
def ContainerKind.emptyContent : ContainerKind → Value
  | list => .list []
  | map => .map []
  | text => .string ""

/-- A text as it reads. -/
def Sequence.string (s : Sequence Char) : String := String.ofList s.toList

/-- The length of a text in bytes of UTF-8. -/
def Sequence.utf8Length (s : Sequence Char) : Nat :=
  s.toList.foldl (fun n c => n + c.utf8Size) 0

/-- The length of a text in units of UTF-16. -/
def Sequence.utf16Length (s : Sequence Char) : Nat :=
  s.toList.foldl (fun n c => n + if c.toNat < 0x10000 then 1 else 2) 0

/-- The content of a container, on a way down of at most `depth` containers. -/
def Registry.contentWithin (registry : Registry) : Nat → ContainerId → Value
  | 0, id => id.kind.emptyContent
  | depth + 1, id =>
    let resolve (v : Value) : Value :=
      match v with
      | .container child => registry.contentWithin depth child
      | v => v
    match registry.get? id with
    | some (.list s) => .list (s.toList.map resolve)
    | some (.map f) => .map (f.toList.map fun e => (e.1, resolve e.2))
    | some (.text s) => .string s.string
    | none => id.kind.emptyContent

/-- The content of a container. -/
def Registry.content (registry : Registry) (id : ContainerId) : Value :=
  registry.contentWithin registry.size id

namespace Document

/-- The key under which a root appears among the given ones. -/
def rootKey (roots : List ContainerId) (id : ContainerId) : String :=
  match id with
  | .root name _ =>
    if 1 < roots.countP (fun other => other.rootName? = some name) then toString id else name
  | .created .. => toString id

/-- The content of the whole document: a map from the keys of the roots to their contents. -/
def content (doc : Document) : Value :=
  let roots := doc.registry.roots
  .ofFields (roots.map fun id => (rootKey roots id, doc.registry.content id))

def contentOf (doc : Document) (id : ContainerId) : Except DocumentError Value :=
  if doc.registry.isResolvable id then .ok (doc.registry.content id)
  else .error (.unknownContainer id)

/-- The content of the whole document as a JSON document. -/
def toJson (doc : Document) : Json := doc.content.toJson

end Document

end CausalDoc
