/-!
# Logged — results with the notices raised on the way

A `Logged ν α` is a value together with the notices of type `ν` that were raised while it was
computed, in order.  Binding joins the notices, and `value_bind` says that the values do not depend
on them.
-/

namespace Flipbook

/-- A value and the notices raised on the way to it. -/
structure Logged (ν α : Type) where
  value : α
  notices : List ν := []
deriving Repr

namespace Logged

variable {ν α β : Type}

/-- Raises one notice. -/
def note (notice : ν) : Logged ν Unit := ⟨(), [notice]⟩

instance : Monad (Logged ν) where
  pure value := ⟨value, []⟩
  bind x f := ⟨(f x.value).value, x.notices ++ (f x.value).notices⟩

@[simp] theorem value_pure (a : α) : (pure a : Logged ν α).value = a := rfl

@[simp] theorem notices_pure (a : α) : (pure a : Logged ν α).notices = [] := rfl

@[simp] theorem value_bind (x : Logged ν α) (f : α → Logged ν β) :
    (x >>= f).value = (f x.value).value := rfl

@[simp] theorem notices_bind (x : Logged ν α) (f : α → Logged ν β) :
    (x >>= f).notices = x.notices ++ (f x.value).notices := rfl

@[simp] theorem value_map (f : α → β) (x : Logged ν α) : (f <$> x).value = f x.value := rfl

@[ext] theorem ext {x y : Logged ν α} (hv : x.value = y.value) (hn : x.notices = y.notices) :
    x = y := by
  cases x; cases y; simp_all

instance : LawfulMonad (Logged ν) :=
  LawfulMonad.mk' (Logged ν) (fun _ => ext rfl (by simp [Functor.map]))
    (fun _ _ => ext rfl (by simp)) (fun _ _ _ => ext rfl (by simp [List.append_assoc]))

end Logged

end Flipbook
