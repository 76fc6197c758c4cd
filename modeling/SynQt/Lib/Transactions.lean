/-! One connection to a transactional store whose statements may fail. What fails has no
effect; a commit that fails leaves its transaction open. -/
namespace SynQt.Lib
universe u
variable {σ : Type u}

/-- What is committed, and what the open transaction sees when there is one. -/
structure Connection (σ : Type u) where
  committed : σ
  working : Option σ := none
deriving DecidableEq

namespace Connection

def view (c : Connection σ) : σ := c.working.getD c.committed

/-- A transaction begins, unless one is open already. -/
def transaction (c : Connection σ) (works : Bool) : Connection σ × Bool :=
  if works && c.working.isNone then ({ c with working := some c.committed }, true) else (c, false)

/-- A statement: inside the open transaction, or committed at once. -/
def exec (c : Connection σ) (works : Bool) (effect : σ → σ) : Connection σ × Bool :=
  if works then
    match c.working with
    | none => ({ c with committed := effect c.committed }, true)
    | some w => ({ c with working := some (effect w) }, true)
  else (c, false)

def commit (c : Connection σ) (works : Bool) : Connection σ × Bool :=
  match c.working with
  | none => (c, false)
  | some w => if works then ({ committed := w }, true) else (c, false)

def rollback (c : Connection σ) : Connection σ := { c with working := none }

variable {c : Connection σ} {s w : σ}

@[simp] theorem exec_open (s w : σ) (works : Bool) (effect : σ → σ) :
    (⟨s, some w⟩ : Connection σ).exec works effect =
      (⟨s, some (if works then effect w else w)⟩, works) := by
  cases works <;> rfl

@[simp] theorem exec_idle (s : σ) (works : Bool) (effect : σ → σ) :
    (⟨s, none⟩ : Connection σ).exec works effect = (⟨if works then effect s else s, none⟩, works) := by
  cases works <;> rfl

@[simp] theorem transaction_idle (s : σ) (works : Bool) :
    (⟨s, none⟩ : Connection σ).transaction works = (⟨s, if works then some s else none⟩, works) := by
  cases works <;> rfl

@[simp] theorem transaction_open (s w : σ) (works : Bool) :
    (⟨s, some w⟩ : Connection σ).transaction works = (⟨s, some w⟩, false) := by
  cases works <;> rfl

@[simp] theorem commit_open (s w : σ) (works : Bool) :
    (⟨s, some w⟩ : Connection σ).commit works = (if works then ⟨w, none⟩ else ⟨s, some w⟩, works) := by
  cases works <;> rfl

@[simp] theorem rollback_open (s w : σ) : (⟨s, some w⟩ : Connection σ).rollback = ⟨s, none⟩ := rfl

@[simp] theorem view_idle (s : σ) : (⟨s, none⟩ : Connection σ).view = s := rfl

end Connection
end SynQt.Lib
