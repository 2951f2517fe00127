import EditLens.Lens.Display
import EditLens.Patch.Basic

/-!
Computations that take notes. The notes are what a reader of a trace sees, in order; they are kept
when a computation stops at a fault. What a computation yields never hangs on its notes: `outcome`
takes steps in sequence to steps in sequence.
-/
namespace EditLens

inductive Note where
  /-- A lens operation dropped an operation of a patch. -/
  | dropped (op : LensOp) (p : PatchOp)
  /-- A patch of so many small operations went through a lens, and so many came out. -/
  | lensed (before after : Nat)
  /-- The lines of a patch that is about to be applied. -/
  | converted (lines : String)
  | nothingToRemove (path : Path)
  /-- So many values were filled in below an empty object. -/
  | filled (count : Nat) (path : Path)
  | removingUndescribed (name : Json)
  | renamingUndescribed (name : Json)
  | plungingUndescribed (name : Json)
  /-- A computation stops for the reason given in words. -/
  | stopped (report : String)
  | banner (text : String)

def Note.text : Note → String
  | dropped op p => op.display ++ " dropped " ++ p.toJson.display
  | lensed before after =>
    "Lensed " ++ toString before ++ " operations into " ++ toString after
  | converted lines => "Converted patch:\n" ++ lines
  | nothingToRemove path => "Nothing to remove at '" ++ Pointer.join path ++ "'"
  | filled count path =>
    "Filled in " ++ toString count ++ " defaults under '" ++ Pointer.join path ++ "'"
  | removingUndescribed name =>
    "Removing '" ++ name.plain ++ "', which the schema does not describe"
  | renamingUndescribed name =>
    "Renaming '" ++ name.plain ++ "', which the schema does not describe"
  | plungingUndescribed name =>
    "Plunging '" ++ name.plain ++ "', which the schema does not describe"
  | stopped report => "Throwing: " ++ report
  | banner text => "========= " ++ text ++ " ========="

/-- The outcome of a computation, and the notes that were taken on the way. -/
structure Noted (α : Type) where
  notes : List Note
  outcome : Except Fault α

namespace Noted

variable {α β : Type}

instance : Monad Noted where
  pure a := ⟨[], .ok a⟩
  bind x f :=
    match x.outcome with
    | .ok a => ⟨x.notes ++ (f a).notes, (f a).outcome⟩
    | .error fault => ⟨x.notes, .error fault⟩

/-- Stops at a fault, with a note if the fault is reported in words. -/
def stop (fault : Fault) : Noted α :=
  match fault.report? with
  | some (_, report) => ⟨[.stopped report], .error fault⟩
  | none => ⟨[], .error fault⟩

def ofExcept : Except Fault α → Noted α
  | .ok a => ⟨[], .ok a⟩
  | .error fault => stop fault

instance : MonadLift (Except Fault) Noted := ⟨ofExcept⟩

/-- Goes on after a fault too: the outcome becomes the yield, and the notes stay. -/
def attempt (x : Noted α) : Noted (Except Fault α) := ⟨x.notes, .ok x.outcome⟩

def note (n : Note) : Noted Unit := ⟨[n], .ok ()⟩

theorem stop_bind (fault : Fault) (f : α → Noted β) : (stop fault >>= f) = stop fault := by
  unfold stop
  split <;> rfl

theorem liftM_error (fault : Fault) :
    (liftM (Except.error fault : Except Fault α) : Noted α) = stop fault := rfl

theorem liftM_ok_bind (a : α) (f : α → Noted β) :
    ((liftM (Except.ok a : Except Fault α) : Noted α) >>= f) = f a := rfl

@[simp] theorem outcome_pure (a : α) : (pure a : Noted α).outcome = .ok a := rfl

@[simp] theorem outcome_bind (x : Noted α) (f : α → Noted β) :
    (x >>= f).outcome = x.outcome >>= fun a => (f a).outcome := by
  obtain ⟨notes, outcome⟩ := x
  cases outcome <;> rfl

@[simp] theorem outcome_stop (fault : Fault) : (stop fault : Noted α).outcome = .error fault := by
  unfold stop
  split <;> rfl

@[simp] theorem outcome_ofExcept (x : Except Fault α) : (ofExcept x).outcome = x := by
  cases x <;> simp [ofExcept]

@[simp] theorem outcome_liftM (x : Except Fault α) : (liftM x : Noted α).outcome = x :=
  outcome_ofExcept x

@[simp] theorem outcome_note (n : Note) : (note n).outcome = .ok () := rfl

end Noted

end EditLens
