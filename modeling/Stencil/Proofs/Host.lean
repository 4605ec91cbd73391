import Stencil.Command.Error
import Stencil.Disk
import Mathlib.Data.List.Forall2
/-!
# Host — running commands on a world

A command on a world ends with a result and leaves a world (`Command.Run.on`).  Running it goes through its parts one
after the other: each lemma says what one part does, and none of them needs to look into the monad again.
-/
namespace Stencil

theorem mapError_eq_ok {ε ε' α : Type} {r : Except ε α} {f : ε → ε'} {a : α} : r.mapError f = .ok a ↔ r = .ok a := by
  constructor
  · intro h
    cases r with
    | ok b => rw [Except.ok.inj h]
    | error e => cases h
  · rintro rfl
    rfl

theorem mapError_eq_error {ε ε' α : Type} {r : Except ε α} {f : ε → ε'} {e' : ε'} :
    r.mapError f = .error e' ↔ ∃ e, r = .error e ∧ f e = e' := by
  constructor
  · intro h
    cases r with
    | ok b => cases h
    | error e => exact ⟨e, rfl, Except.error.inj h⟩
  · rintro ⟨e, rfl, rfl⟩
    rfl

namespace Command.Run

variable {α β : Type}

def on (c : Command.Run (StateM World) α) (w : World) : Except CommandError α × World := c.run.run w

@[simp] theorem on_pure (a : α) (w : World) : on (pure a) w = (.ok a, w) := rfl

@[simp] theorem on_throw (e : CommandError) (w : World) :
    on (throw e : Command.Run (StateM World) α) w = (.error e, w) := rfl

theorem on_bind (c : Command.Run (StateM World) α) (f : α → Command.Run (StateM World) β) (w : World) :
    on (c >>= f) w = match on c w with
      | (.ok a, w) => on (f a) w
      | (.error e, w) => (.error e, w) := by
  show (ExceptT.bind c f).run.run w = _
  unfold ExceptT.bind on
  simp only [ExceptT.run_mk, StateT.run_bind]
  rcases h : c.run.run w with ⟨_ | _, _⟩ <;> rw [show StateT.run c w = _ from h] <;> rfl

theorem on_bind_ok {c : Command.Run (StateM World) α} {w w' : World} {a : α} (h : on c w = (.ok a, w'))
    (f : α → Command.Run (StateM World) β) : on (c >>= f) w = on (f a) w' := by
  rw [on_bind, h]

theorem on_bind_error {c : Command.Run (StateM World) α} {w w' : World} {e : CommandError}
    (h : on c w = (.error e, w')) (f : α → Command.Run (StateM World) β) : on (c >>= f) w = (.error e, w') := by
  rw [on_bind, h]

theorem on_bind_eq_ok {c : Command.Run (StateM World) α} {f : α → Command.Run (StateM World) β} {w w' : World} {b : β} :
    on (c >>= f) w = (.ok b, w') ↔ ∃ a v, on c w = (.ok a, v) ∧ on (f a) v = (.ok b, w') := by
  rw [on_bind]
  constructor
  · intro h
    split at h
    · rename_i a v hc
      exact ⟨a, v, hc, h⟩
    · cases h
  · rintro ⟨a, v, hc, h⟩
    rw [hc]
    exact h

@[simp] theorem on_lift (op : StateM World α) (w : World) : on (liftM op) w = (.ok (op.run w).1, (op.run w).2) := rfl

@[simp] theorem on_attempt (op : StateM World (Except IoFailure α)) (error : IoFailure → CommandError) (w : World) :
    on (attempt op error) w = ((op.run w).1.mapError error, (op.run w).2) := by
  rw [attempt, on_bind, on_lift]
  rcases op.run w with ⟨_ | _, _⟩ <;> rfl

@[simp] theorem on_ofExcept {ε : Type} (r : Except ε α) (error : ε → CommandError) (w : World) :
    on (ofExcept r error) w = (r.mapError error, w) := by
  cases r <;> rfl

/-! ## Commands that only read -/

def OnlyReads (c : Command.Run (StateM World) α) : Prop := ∀ w, (on c w).2 = w

theorem OnlyReads.on_eq {c : Command.Run (StateM World) α} (h : OnlyReads c) {w w' : World} {r : Except CommandError α}
    (hc : on c w = (r, w')) : w' = w := by
  rw [← h w, hc]

theorem OnlyReads.pure (a : α) : OnlyReads (Pure.pure a : Command.Run (StateM World) α) := fun _ => rfl

theorem OnlyReads.throw (e : CommandError) : OnlyReads (MonadExcept.throw e : Command.Run (StateM World) α) :=
  fun _ => rfl

theorem OnlyReads.bind {c : Command.Run (StateM World) α} {f : α → Command.Run (StateM World) β} (hc : OnlyReads c)
    (hf : ∀ a, OnlyReads (f a)) : OnlyReads (c >>= f) := by
  intro w
  rw [on_bind]
  split
  · rename_i a v h
    rw [hf a v, hc.on_eq h]
  · rename_i e v h
    exact hc.on_eq h

theorem OnlyReads.ofExcept {ε : Type} (r : Except ε α) (error : ε → CommandError) :
    OnlyReads (Run.ofExcept r error : Command.Run (StateM World) α) := fun w => by rw [on_ofExcept]

theorem OnlyReads.attempt {op : StateM World (Except IoFailure α)} (h : ∀ w, (op.run w).2 = w)
    (error : IoFailure → CommandError) : OnlyReads (Run.attempt op error) := fun w => by rw [on_attempt, h]

theorem OnlyReads.lift {op : StateM World α} (h : ∀ w, (op.run w).2 = w) :
    OnlyReads (liftM op : Command.Run (StateM World) α) := h

theorem OnlyReads.unless {p : Prop} [Decidable p] {k : PUnit → Command.Run (StateM World) α} (hk : OnlyReads (k ()))
    (e : CommandError) : OnlyReads (if p then k () else MonadExcept.throw e >>= k) := by
  split
  · exact hk
  · exact .bind (.throw e) fun _ => hk

theorem OnlyReads.mapM {f : α → Command.Run (StateM World) β} (hf : ∀ a, OnlyReads (f a)) (as : List α) :
    OnlyReads (as.mapM f) := by
  induction as with
  | nil =>
    rw [List.mapM_nil]
    exact .pure []
  | cons a as ih =>
    rw [List.mapM_cons]
    exact (hf a).bind fun b => ih.bind fun bs => .pure _

theorem on_mapM_eq_ok {f : α → Command.Run (StateM World) β} (hf : ∀ a, OnlyReads (f a)) {as : List α} {bs : List β}
    {w w' : World} (h : on (as.mapM f) w = (.ok bs, w')) : List.Forall₂ (fun a b => on (f a) w = (.ok b, w)) as bs := by
  induction as generalizing bs with
  | nil =>
    rw [List.mapM_nil] at h
    cases h
    exact .nil
  | cons a as ih =>
    rw [List.mapM_cons] at h
    obtain ⟨b, v, hb, hrest⟩ := on_bind_eq_ok.1 h
    obtain rfl := (hf a).on_eq hb
    obtain ⟨bs', v', hbs, hend⟩ := on_bind_eq_ok.1 hrest
    cases hend
    exact .cons hb (ih hbs)

/-! ## Commands that end in a known way -/

/-- On every world a command ends with a result that satisfies `Q` or with an error that satisfies `E`. -/
def Ends (c : Command.Run (StateM World) α) (Q : α → Prop) (E : CommandError → Prop) : Prop :=
  ∀ w, match (on c w).1 with
    | .ok a => Q a
    | .error e => E e

variable {Q : α → Prop} {R : β → Prop} {E : CommandError → Prop}

theorem Ends.pure {a : α} (h : Q a) : Ends (Pure.pure a) Q E := fun _ => h

theorem Ends.throw {e : CommandError} (h : E e) : Ends (MonadExcept.throw e) Q E := fun _ => h

theorem Ends.bind {c : Command.Run (StateM World) α} {f : α → Command.Run (StateM World) β} (hc : Ends c Q E)
    (hf : ∀ a, Q a → Ends (f a) R E) : Ends (c >>= f) R E := by
  intro w
  have h := hc w
  rw [on_bind]
  rcases hon : on c w with ⟨e | a, v⟩ <;> rw [hon] at h
  · exact h
  · exact hf a h v

theorem Ends.ofExcept {ε : Type} {r : Except ε α} {error : ε → CommandError} (hok : ∀ a, r = .ok a → Q a)
    (herror : ∀ e, r = .error e → E (error e)) : Ends (Run.ofExcept r error) Q E := by
  intro w
  rw [on_ofExcept]
  cases r with
  | ok a => exact hok a rfl
  | error e => exact herror e rfl

theorem Ends.attempt (op : StateM World (Except IoFailure α)) {error : IoFailure → CommandError}
    (h : ∀ f, E (error f)) : Ends (Run.attempt op error) (fun _ => True) E := by
  intro w
  rw [on_attempt]
  rcases (op.run w).1 with f | a
  · exact h f
  · trivial

theorem Ends.lift (op : StateM World α) : Ends (liftM op) (fun _ => True) E := fun _ => trivial

theorem Ends.unless {p : Prop} [Decidable p] {k : PUnit → Command.Run (StateM World) α} {e : CommandError}
    (hk : p → Ends (k ()) Q E) (he : E e) : Ends (if p then k () else MonadExcept.throw e >>= k) Q E := by
  split
  · rename_i hp
    exact hk hp
  · exact (Ends.throw (Q := fun _ => False) he).bind nofun

theorem Ends.mapM {f : α → Command.Run (StateM World) β} (hf : ∀ a, Ends (f a) R E) (as : List α) :
    Ends (as.mapM f) (fun bs => ∀ b ∈ bs, R b) E := by
  induction as with
  | nil =>
    rw [List.mapM_nil]
    exact .pure nofun
  | cons a as ih =>
    rw [List.mapM_cons]
    exact (hf a).bind fun b hb => ih.bind fun bs hbs => .pure (List.forall_mem_cons.2 ⟨hb, hbs⟩)

end Command.Run

/-! ## The operations of a world -/

namespace World

variable (w : World) (p q : Path) (c : Bytes)

@[simp] theorem run_readFile : (Host.readFile (m := StateM World) p).run w = (w.disk.readFile p, w) := rfl

@[simp] theorem run_isDir : (Host.isDir (m := StateM World) p).run w = (w.disk.isDir p, w) := rfl

@[simp] theorem run_pathExists : (Host.pathExists (m := StateM World) p).run w = (w.disk.pathExists p, w) := rfl

@[simp] theorem run_walk : (Host.walk (m := StateM World) p).run w = (w.disk.walk p, w) := rfl

@[simp] theorem run_print : (Host.print (m := StateM World) c).run w = ((), { w with printed := c :: w.printed }) := rfl

@[simp] theorem run_report (s : String) :
    (Host.report (m := StateM World) s).run w = ((), { w with reported := s :: w.reported }) := rfl

@[simp] theorem run_writeFile : (Host.writeFile (m := StateM World) p c).run w =
    ((w.disk.after (w.disk.writeFile p c)).2, { w with disk := (w.disk.after (w.disk.writeFile p c)).1 }) := rfl

@[simp] theorem run_copyFile : (Host.copyFile (m := StateM World) p q).run w =
    ((w.disk.after (w.disk.copyFile p q)).2, { w with disk := (w.disk.after (w.disk.copyFile p q)).1 }) := rfl

@[simp] theorem run_createDir : (Host.createDir (m := StateM World) p).run w =
    ((w.disk.createDir p).2, { w with disk := (w.disk.createDir p).1 }) := rfl

end World
end Stencil
