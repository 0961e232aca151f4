import NorLoader.Proofs.Host.Run
import NorLoader.Proofs.Image.DeviceMap

/-!
# What a controller does to its device

A controller executes the requests that come and erases ahead in between, on whatever device it has
(`Controller.attendAll`).  It gets at the device through the job alone, and by unlocking it.  So a
property of devices holds after every run if it is kept by what a job does and by the unlock
(`DeviceUpkeep`).

Such a property may be about the order of a log that the device keeps.  If what an entry needs is
right next to it, then a log is in order as soon as it is made of pieces that are
(`WellPlaced.append`), and nothing has to be known about what happened in between.
-/

namespace NorLoader

/-- A block is acknowledged before anything is done about it. -/
theorem Controller.loader_receive {δ : Type} (c : Controller δ) (b : DataBlock) :
    (c.receive b).2.loader = c.loader := by
  rcases c.receive_cases b with ⟨-, hsame⟩ | ⟨route, -, -, -, -, -, hnext⟩
  · rw [hsame]
  · rw [hnext]

variable {δ : Type} [FlashDevice δ]

namespace Controller

/-- Executes a request, if one was found, and erases ahead if none was. -/
def attend (p : Controller δ) : Option Request → Option Answer × Controller δ
  | some q => (some (p.execute q).1, (p.execute q).2)
  | none => (none, p.idle.2)

/-- Attends to all that was found; gives the answers in their order. -/
def attendAll (p : Controller δ) : List (Option Request) → List Answer × Controller δ
  | [] => ([], p)
  | found :: rest =>
      let (answer, p) := p.attend found
      let (answers, p) := p.attendAll rest
      (answer.toList ++ answers, p)

end Controller

/-- Attending on a part of a device is the same as on the whole. -/
theorem DeviceMap.attendAll {φ : Type} [FlashDevice φ] {π : δ → φ} (h : DeviceMap π)
    (c : Controller δ) (found : List (Option Request)) :
    (c.map π).attendAll found = ((c.attendAll found).1, (c.attendAll found).2.map π) := by
  induction found generalizing c with
  | nil => rfl
  | cons first rest ih =>
      have hfirst : (c.map π).attend first = ((c.attend first).1, (c.attend first).2.map π) := by
        cases first with
        | none => simp only [Controller.attend, h.idle]
        | some q => simp only [Controller.attend, h.execute]
      simp only [Controller.attendAll, hfirst, ih]

/-- `P` is kept by everything that a controller does to its device. -/
structure DeviceUpkeep (P : δ → Prop) : Prop extends Job.Upkeep (fun _ _ d => P d) where
  unlock : ∀ {d}, P d → P (FlashDevice.unlock d).2

namespace DeviceUpkeep

variable {P : δ → Prop} {c : Controller δ}

/-- Opening a job keeps `P`. -/
theorem start (h : DeviceUpkeep P) {d : δ} (hp : P d) (size offset : UInt32) :
    P (Job.start size offset d).2.2 := by
  have hunlock := h.unlock hp
  simp only [Job.start]
  split <;> rename_i heq <;> rw [heq] at hunlock <;> exact hunlock

/-- So does a request, but for the payload. -/
theorem respond (h : DeviceUpkeep P) (hp : P c.loader.device) (q : Request) :
    P (c.respond q).2.loader.device := by
  cases q with
  | start size offset => exact h.start hp size offset
  | startPacked size packedSize offset => exact h.start hp size offset
  | data b =>
      rw [show (c.respond (.data b)).2.loader = c.loader from c.loader_receive b]
      exact hp
  | query => exact hp
  | finish => exact hp
  | reboot => exact hp

/-- So does a payload. -/
theorem storePayload (h : DeviceUpkeep P) (hp : P c.loader.device) (kind : BlockKind)
    (payload : List UInt8) : P (c.storePayload kind payload).loader.device := by
  cases kind with
  | plain => exact h.write (w := []) hp .plain payload
  | encrypted => exact h.write (w := []) hp .encrypted payload
  | deflated =>
      obtain ⟨-, -, hunpacked⟩ := h.unpack (w := []) c.loader.unpacker hp payload
      exact hunpacked

/-- So does a request, its payload included. -/
theorem execute (h : DeviceUpkeep P) (hp : P c.loader.device) (q : Request) :
    P (c.execute q).2.loader.device := by
  have hanswered := h.respond hp q
  simp only [Controller.execute, Controller.storePending]
  split
  · exact h.storePayload hanswered _ _
  · exact hanswered

/-- So does an idle moment. -/
theorem idle (h : DeviceUpkeep P) (hp : P c.loader.device) : P c.idle.2.loader.device := by
  simp only [Controller.idle]
  split
  · exact h.eraseAhead (w := []) hp
  · exact hp

/-- So does a turn of the service, whether or not there was a request. -/
theorem attend (h : DeviceUpkeep P) (hp : P c.loader.device) (found : Option Request) :
    P (c.attend found).2.loader.device := by
  cases found with
  | none => exact h.idle hp
  | some q => exact h.execute hp q

/-- So do any number of turns. -/
theorem attendAll (h : DeviceUpkeep P) (hp : P c.loader.device) (found : List (Option Request)) :
    P (c.attendAll found).2.loader.device := by
  induction found generalizing c with
  | nil => exact hp
  | cons first rest ih => exact ih (h.attend hp first)

end DeviceUpkeep

/-! ## The order of a log -/

section Logs

variable {α : Type} {needs : List α → α → List α → Prop} {log piece : List α}

/-- Every entry of a log has before and after it what it needs. -/
def WellPlaced (needs : List α → α → List α → Prop) (log : List α) : Prop :=
  ∀ before x after, log = before ++ x :: after → needs before x after

/-- What an entry needs it still has with more entries at either end. -/
def Lasting (needs : List α → α → List α → Prop) : Prop :=
  ∀ {before x after} (more more' : List α), needs before x after →
    needs (more ++ before) x (after ++ more')

namespace WellPlaced

/-- A log may go on with another that is well placed. -/
theorem append (hneeds : Lasting needs) (h : WellPlaced needs log) (h' : WellPlaced needs piece) :
    WellPlaced needs (log ++ piece) := by
  intro before x after heq
  -- the entry is in the log or in the piece
  rcases List.append_eq_append_iff.mp heq with ⟨before', rfl, hpiece⟩ | ⟨rest, rfl, hrest⟩
  · simpa using hneeds log [] (h' before' x after hpiece)
  · rcases List.cons_eq_append_iff.mp hrest with ⟨rfl, hpiece⟩ | ⟨after', rfl, rfl⟩
    · simpa using hneeds before [] (h' [] x after hpiece)
    · exact hneeds [] piece (h before x after' rfl)

/-- There is nothing out of place in an empty log. -/
theorem nil : WellPlaced needs [] := by
  intro before x after heq
  exact absurd heq (by simp)

/-- A piece of entries that need nothing. -/
theorem of_forall (h : ∀ x ∈ piece, ∀ before after, needs before x after) :
    WellPlaced needs piece := by
  intro before x after heq
  refine h x ?_ before after
  rw [heq]
  exact List.mem_append_right before List.mem_cons_self

end WellPlaced

end Logs
end NorLoader
