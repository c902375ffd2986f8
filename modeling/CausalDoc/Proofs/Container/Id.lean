import CausalDoc.Container.Id

/- The written forms of names are read back.

   A name is cut at its last colon. A kind is written without one, so whatever colons the
   name of a root has, the form of a root is read as that root (`read?_root`), and two roots
   are never written alike. -/

namespace CausalDoc

namespace Text

theorem splitLast?_eq_none {separator : Char} :
    ∀ {cs : List Char}, separator ∉ cs → splitLast? separator cs = none
  | [], _ => rfl
  | c :: cs, h => by
    rw [List.mem_cons, not_or] at h
    rw [splitLast?, splitLast?_eq_none h.2]
    exact if_neg (Ne.symm h.1)

theorem splitLast?_append {separator : Char} {behind : List Char} (h : separator ∉ behind) :
    ∀ before : List Char,
      splitLast? separator (before ++ separator :: behind) = some (before, behind)
  | [] => by
    rw [List.nil_append, splitLast?, splitLast?_eq_none h]
    exact if_pos rfl
  | c :: before => by rw [List.cons_append, splitLast?, splitLast?_append h before]

end Text

namespace ContainerKind

theorem read?_toString (kind : ContainerKind) : read? (toString kind) = some kind := by
  cases kind <;> decide

theorem colon_not_mem (kind : ContainerKind) : ':' ∉ (toString kind).toList := by
  cases kind <;> decide

end ContainerKind

namespace ContainerId

theorem toList_root (name : String) (kind : ContainerKind) :
    (toString (root name kind)).toList = '/' :: name.toList ++ ':' :: (toString kind).toList := by
  show ("/" ++ name ++ ":" ++ toString kind).toList = _
  simp

theorem read?_root (name : String) (kind : ContainerKind) :
    read? (toString (root name kind)) = some (root name kind) := by
  rw [read?, toList_root, Text.splitLast?_append kind.colon_not_mem]
  simp [ContainerKind.read?_toString]

theorem toString_root_inj {name name' : String} {kind kind' : ContainerKind} :
    toString (root name kind) = toString (root name' kind') ↔ root name kind = root name' kind' := by
  refine ⟨fun h => ?_, fun h => congrArg _ h⟩
  have hread := congrArg read? h
  rw [read?_root, read?_root] at hread
  exact Option.some.inj hread

end ContainerId

end CausalDoc
