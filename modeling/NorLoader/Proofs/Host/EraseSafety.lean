import NorLoader.Proofs.Host.Run
import NorLoader.Proofs.Image.EraseOrder

/-!
# Erases spare what a session wrote

The job of a session is orderly from the moment it is opened, so over a whole run no program meets
a cell that is not erased, and within a session no erase covers what the session has programmed.
-/

namespace NorLoader

namespace Controller

variable {capacity : Nat}

/-- Nothing that happens in a session makes its job less orderly. -/
theorem orderly_upkeep {offset size : UInt32} (calls misuses : Nat)
    (hfits : Fits capacity offset.toNat size.toNat) :
    @SessionUpkeep capacity (Job.Orderly offset size calls misuses) where
  toUpkeep := Job.Orderly.upkeep offset size calls misuses hfits
  close h _ := { h with placed := { h.placed with } }
  switch _ h := { h with }

/-- A job that was just opened is orderly from there on. -/
theorem orderly_of_opens {r : Request} {size offset : UInt32}
    {c c' : Controller (Simulator capacity)} (h : Opens r size offset c c')
    (hjob : c'.loader.job = .fresh size offset)
    (hclean : ∀ a, .notErased a ∉ c.loader.device.misuses.toList) :
    Job.Orderly offset size c.loader.device.calls.size c.loader.device.misuses.size []
      c'.loader.job c'.loader.device := by
  have hcalls : c'.loader.device.callsSince c.loader.device.calls.size = [.unlock] :=
    Simulator.callsSince_of_append h.calls
  have hseen : c'.loader.device.misusesSince c.loader.device.misuses.size = [] := by
    rw [Simulator.misusesSince, h.misuses]
    exact Simulator.misusesSince_size _
  refine ⟨?_, ?_, ?_, ?_, ?_, ?_, ?_⟩
  · rw [hjob]
    exact Job.placed_fresh offset size _
  · exact Simulator.le_size_of_append (Nat.le_refl _) h.calls
  · exact Nat.le_of_eq (congrArg Array.size h.misuses.symm)
  · rw [hcalls]
    intro call hcall a _ hp
    rw [List.mem_singleton.mp hcall] at hp
    exact hp.elim
  · rw [hcalls]
    exact List.pairwise_singleton _ _
  · rw [h.misuses]
    exact hclean
  · rw [hseen]
    intro a hmem
    exact absurd hmem List.not_mem_nil

/-- No program met a cell that was not erased, and an open job is orderly. -/
structure Disciplined (c : Controller (Simulator capacity)) : Prop where
  clean : ∀ a, .notErased a ∉ c.loader.device.misuses.toList
  orderly : c.loader.job.active = true → ∃ offset size calls misuses w,
    Job.Orderly offset size calls misuses w c.loader.job c.loader.device

section Blocks

variable (hblocks : blockSize ∣ capacity) (hcap : capacity < 2 ^ 32)

include hblocks hcap in
/-- An event keeps the discipline, an opening by a new job. -/
theorem Disciplined.after {c : Controller (Simulator capacity)} (h : Disciplined c) (e : Event) :
    Disciplined (c.after e) := by
  cases he : e.opens with
  | true =>
      cases e with
      | idle => exact nomatch he
      | switch => exact nomatch he
      | request r =>
          obtain ⟨⟨size, offset⟩, hspan⟩ := Option.isSome_iff_exists.mp he
          have hopens := c.after_opening hspan
          refine ⟨by rw [hopens.misuses]; exact h.clean, ?_⟩
          intro hactive
          rcases hopens.job with ⟨-, hidle, -⟩ | ⟨-, hfresh, -⟩
          · rw [hidle] at hactive
            exact nomatch hactive
          · exact ⟨offset, size, _, _, [], orderly_of_opens hopens hfresh h.clean⟩
  | false =>
      cases hactive : c.loader.job.active with
      | true =>
          obtain ⟨offset, size, calls, misuses, w, horderly⟩ := h.orderly hactive
          obtain ⟨vs, -, hnext⟩ :=
            (orderly_upkeep calls misuses (Or.inl ⟨hblocks, hcap⟩)).after he horderly
          exact ⟨hnext.notErased, fun _ => ⟨offset, size, calls, misuses, _, hnext⟩⟩
      | false =>
          obtain ⟨faults, heq⟩ := c.after_of_inactive he hactive
          rw [heq]
          exact ⟨h.clean, fun hopen => nomatch hactive.symm.trans hopen⟩

include hblocks hcap in
/-- In every run on a device without recorded misuses: no program meets a cell that is not erased;
    and from one attempt to open a job to the next, no erase covers an address that was programmed
    since the first of them, so that a programmed cell an erase meets was left by an earlier
    session. -/
theorem erases_spare_session (d : Simulator capacity) (hfresh : d.misuses = #[])
    (es : List Event) :
    (∀ a, .notErased a ∉ ((powerOn d).run es).loader.device.misuses.toList) ∧
      ∀ (before : List Event) (opening : Event) (session : List Event),
        es = before ++ opening :: session → opening.opens = true →
        (∀ e ∈ session, e.opens = false) →
        let start := ((powerOn d).run before).loader.device
        let device := ((powerOn d).run es).loader.device
        let calls := device.callsSince start.calls.size
        (calls.Pairwise fun earlier later =>
          ∀ a < capacity, earlier.Programs a → ¬later.Erases a) ∧
        ∀ a, .erasedData a ∈ device.misusesSince start.misuses.size →
          ∃ earlier erase later, calls = earlier ++ erase :: later ∧ erase.Erases a ∧
            ∀ call ∈ earlier, ¬call.Programs a := by
  have hrun : ∀ es, Disciplined ((powerOn d).run es) := by
    refine run_induct (fun c e h => h.after hblocks hcap e) ⟨?_, nofun⟩
    intro a ha
    have hmem : .notErased a ∈ d.misuses.toList := ha
    rw [hfresh] at hmem
    exact nomatch hmem
  refine ⟨(hrun es).clean, ?_⟩
  intro before opening session hes hopening hsession
  obtain ⟨r, size, offset, rfl, hspan⟩ := opening.opens_iff.mp hopening
  have hopens := ((powerOn d).run before).after_opening hspan
  rw [hes, run_append, run_cons]
  intro start device calls
  rcases hopens.job with ⟨-, hidle, -⟩ | ⟨-, hfresh, -⟩
  · -- no job was opened, so nothing happens until the next attempt
    obtain ⟨-, -, hcalls, hmisuses⟩ := run_of_inactive hsession (by rw [hidle]; rfl)
    have hlog : calls = [.unlock] := by
      refine (Simulator.callsSince_append (Nat.le_refl _) (hcalls.trans hopens.calls)).trans ?_
      rw [Simulator.callsSince_size, List.nil_append]
    have hseen : device.misusesSince start.misuses.size = [] := by
      rw [Simulator.misusesSince, hmisuses, hopens.misuses]
      exact Simulator.misusesSince_size _
    rw [hlog, hseen]
    exact ⟨List.pairwise_singleton _ _, fun a hmem => absurd hmem List.not_mem_nil⟩
  · obtain ⟨vs, horderly⟩ := (orderly_upkeep _ _ (Or.inl ⟨hblocks, hcap⟩)).run hsession
      (orderly_of_opens hopens hfresh (hrun before).clean)
    refine ⟨horderly.ordered, ?_⟩
    intro a hmem
    obtain ⟨ha, erase, herase, hcovers⟩ := horderly.erasedData a hmem
    -- had the cell been programmed before the erase, that erase would cover a programmed address
    obtain ⟨earlier, later, hsplit⟩ := List.append_of_mem herase
    refine ⟨earlier, erase, later, hsplit, hcovers, ?_⟩
    intro call hcall hprograms
    have hordered := horderly.ordered
    rw [hsplit] at hordered
    exact (List.pairwise_append.mp hordered).2.2 call hcall erase List.mem_cons_self a ha
      hprograms hcovers

end Blocks

/-- A job that is abandoned after one block for another one on the same sectors. -/
theorem erases_spare_session_restarted :
    let d : Simulator 65536 := { eraseTime := 3 }
    let block : DataBlock := ⟨.plain, 0, Crc32.checksum [1, 2, 3], [1, 2, 3]⟩
    let before : List Event := [.request (.start 3 4094), .request (.data block)]
    let session : List Event := [.idle, .request (.data block), .idle]
    let es := before ++ .request (.start 9 4094) :: session
    let start := ((powerOn d).run before).loader.device
    let device := ((powerOn d).run es).loader.device
    let calls := device.callsSince start.calls.size
    (∀ a, .notErased a ∉ device.misuses.toList) ∧
      (calls.Pairwise fun earlier later =>
        ∀ a < 65536, earlier.Programs a → ¬later.Erases a) ∧
      ∀ a, .erasedData a ∈ device.misusesSince start.misuses.size →
        ∃ earlier erase later, calls = earlier ++ erase :: later ∧ erase.Erases a ∧
          ∀ call ∈ earlier, ¬call.Programs a := by
  intro d block before session es start device calls
  have hblocks : blockSize ∣ 65536 := ⟨1, rfl⟩
  have h := erases_spare_session hblocks (by decide) d rfl es
  exact ⟨h.1, h.2 before (.request (.start 9 4094)) session rfl rfl (by decide)⟩

end Controller
end NorLoader
