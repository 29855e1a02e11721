import ApiReview.Json.Value

/-!
# One document over another

`overlay base top` is the document in which `top` decides wherever it says something: objects are
laid over each other key by key, and any other value of `top`, arrays included, replaces what was
there. Keys of the base keep their places, and the keys that only `top` has follow in its order.
-/

namespace ApiReview.Json

mutual

/-- The document `base` with `top` laid over it. -/
def overlay (base : Json) : Json → Json
  | .object top =>
    match base with
    | .object members => .object (overlayMembers members top)
    | _ => .object top
  | top => top

/-- The members of an object with those of another laid over them. -/
def overlayMembers (base : Members) : Members → Members
  | [] => base
  | (key, value) :: top =>
    overlayMembers
      (match find? key base with
        | some old => put key (overlay old value) base
        | none => base ++ [(key, value)])
      top

end

theorem overlay_of_not_object {base top : Json} (h : top.isObject = false) :
    overlay base top = top := by
  cases top <;> simp_all [overlay, isObject]

end ApiReview.Json
