import NorLoader.Proofs.Image.Placement

/-!
# The order of erases and programs

Since the frontier is past everything that a job delivered, none of its erases covers an address
that it had programmed before; since the cells ahead are erased, none of its programs meets a cell
that is not.  `Orderly` states both about the logs of the device, and everything that a job does
keeps it.
-/

namespace NorLoader

namespace DeviceCall

/-- A call asks for an address to be programmed. -/
def Programs (call : DeviceCall) (a : Nat) : Prop :=
  match call with
  | .program addr data => addr.toNat ≤ a ∧ a < addr.toNat + data.length
  | .encryptAndProgram addr data => addr.toNat ≤ a ∧ a < addr.toNat + data.length
  | _ => False

/-- A call asks for an address to be erased. -/
def Erases (call : DeviceCall) (a : Nat) : Prop :=
  match call with
  | .erase addr size => addr.toNat ≤ a ∧ a < addr.toNat + size.bytes
  | _ => False

/-- A program erases nothing, and programs what it is given. -/
theorem of_mem_programCalls {storage : Storage} {addr : UInt32} {data : List UInt8}
    {call : DeviceCall} (h : call ∈ Simulator.programCalls storage addr data) (a : Nat) :
    ¬call.Erases a ∧ (call.Programs a → addr.toNat ≤ a ∧ a < addr.toNat + data.length) := by
  cases storage with
  | plain =>
      rw [List.mem_singleton.mp h]
      exact ⟨id, id⟩
  | encrypted =>
      rcases List.mem_cons.mp h with rfl | h
      · exact ⟨id, False.elim⟩
      · rcases List.mem_cons.mp h with rfl | h
        · exact ⟨id, id⟩
        · rw [List.mem_singleton.mp h]
          exact ⟨id, False.elim⟩

end DeviceCall

/-! ## Misuses -/

namespace Simulator

variable {capacity : Nat}

/-- An erase meets a programmed cell only within its unit. -/
theorem mem_eraseMisuses {s : Simulator capacity} {addr : UInt32} {size : EraseSize} {m : Misuse}
    (h : m ∈ s.eraseMisuses addr size) (a : Nat) :
    m ≠ .notErased a ∧ (m = .erasedData a →
      a < capacity ∧ addr.toNat ≤ a ∧ a < addr.toNat + size.bytes) := by
  simp only [eraseMisuses] at h
  rcases List.mem_append.mp h with h | h
  · -- none of the checks before the range names a cell
    have hkind : m = .whileBusy ∨ m = .notEnabled ∨ m = .misaligned addr := by
      rcases List.mem_append.mp h with h | h
      · rcases List.mem_append.mp h with h | h
        · split at h
          · exact Or.inl (List.mem_singleton.mp h)
          · exact nomatch h
        · split at h
          · exact nomatch h
          · exact Or.inr (Or.inl (List.mem_singleton.mp h))
      · split at h
        · exact nomatch h
        · exact Or.inr (Or.inr (List.mem_singleton.mp h))
    rcases hkind with rfl | rfl | rfl <;> exact ⟨nofun, nofun⟩
  · split at h
    · rename_i hin
      obtain ⟨b, hb, rfl⟩ := List.mem_map.mp h
      refine ⟨nofun, ?_⟩
      intro hab
      cases hab
      have hmem := List.mem_of_find?_eq_some (Option.mem_toList.mp hb)
      have := List.mem_range'_1.mp hmem
      omega
    · rw [List.mem_singleton.mp h]
      exact ⟨nofun, nofun⟩

end Simulator

/-- In an erased range there is nothing that is not. -/
theorem Cells.unerased_eq_nil {capacity : Nat} {cells : Cells capacity} {start len : Nat}
    (hin : start + len ≤ capacity)
    (h : ∀ (a : Nat) (ha : a < capacity), start ≤ a → a < start + len → cells[a] = .erased) :
    cells.unerased start len = [] := by
  refine List.filter_eq_nil_iff.mpr ?_
  intro a ha
  obtain ⟨hfrom, hto⟩ := List.mem_range'_1.mp ha
  have hlt : a < capacity := by omega
  rw [Vector.getElem?_eq_getElem hlt, h a hlt hfrom hto]
  decide

/-! ## Orderly jobs -/

namespace Job

/-- What the logs of the device say about a job that was opened when they had `calls` and
    `misuses` entries. -/
structure Orderly {capacity : Nat} (offset size : UInt32) (calls misuses : Nat)
    (w : List Delivery) (j : Job) (s : Simulator capacity) : Prop where
  placed : j.Placed offset size (delivered w) s.cells
  calls_le : calls ≤ s.calls.size
  misuses_le : misuses ≤ s.misuses.size
  /-- Programs keep to the place of the bytes that were delivered. -/
  programs : ∀ call ∈ s.callsSince calls, ∀ a < capacity, call.Programs a →
    offset.toNat ≤ a ∧ a < offset.toNat + delivered w
  /-- No erase covers what was programmed before it. -/
  ordered : (s.callsSince calls).Pairwise fun earlier later =>
    ∀ a < capacity, earlier.Programs a → ¬later.Erases a
  notErased : ∀ a, .notErased a ∉ s.misuses.toList
  /-- A programmed cell is met only by an erase that covers it. -/
  erasedData : ∀ a, .erasedData a ∈ s.misusesSince misuses →
    a < capacity ∧ ∃ call ∈ s.callsSince calls, call.Erases a

namespace Orderly

variable {capacity : Nat} {offset size : UInt32} {calls misuses : Nat} {w : List Delivery}
  {j : Job} {s : Simulator capacity}

/-- Calls and misuses that keep a job orderly. -/
theorem extend (h : j.Orderly offset size calls misuses w s) {w' : List Delivery} {j' : Job}
    {s' : Simulator capacity} {cs : List DeviceCall} {ms : List Misuse}
    (hcalls : s'.calls = s.calls ++ cs) (hmisuses : s'.misuses = s.misuses ++ ms)
    (hplaced : j'.Placed offset size (delivered w') s'.cells)
    (hmore : delivered w ≤ delivered w')
    (hprograms : ∀ call ∈ cs, ∀ a < capacity, call.Programs a →
      offset.toNat ≤ a ∧ a < offset.toNat + delivered w')
    (herases : ∀ call ∈ cs, ∀ a < capacity, call.Erases a →
      ¬(offset.toNat ≤ a ∧ a < offset.toNat + delivered w))
    (hordered : cs.Pairwise fun earlier later =>
      ∀ a < capacity, earlier.Programs a → ¬later.Erases a)
    (hms : ∀ m ∈ ms, ∀ a, m ≠ .notErased a ∧
      (m = .erasedData a → a < capacity ∧ ∃ call ∈ cs, call.Erases a)) :
    j'.Orderly offset size calls misuses w' s' := by
  have hsince := Simulator.callsSince_append h.calls_le hcalls
  have hseen := Simulator.misusesSince_append h.misuses_le hmisuses
  refine ⟨hplaced, ?_, ?_, ?_, ?_, ?_, ?_⟩
  · exact Simulator.le_size_of_append h.calls_le hcalls
  · exact Simulator.le_size_of_append h.misuses_le hmisuses
  · rw [hsince]
    intro call hcall a ha hp
    rcases List.mem_append.mp hcall with hcall | hcall
    · have := h.programs call hcall a ha hp
      omega
    · exact hprograms call hcall a ha hp
  · -- what is new comes after all that was there
    rw [hsince]
    refine List.pairwise_append.mpr ⟨h.ordered, hordered, ?_⟩
    intro earlier hearlier later hlater a ha hp he
    exact herases later hlater a ha he (h.programs earlier hearlier a ha hp)
  · intro a hmem
    rw [hmisuses, Array.toList_appendList] at hmem
    rcases List.mem_append.mp hmem with hmem | hmem
    · exact h.notErased a hmem
    · exact (hms _ hmem a).1 rfl
  · intro a hmem
    rw [hseen] at hmem
    rw [hsince]
    rcases List.mem_append.mp hmem with hmem | hmem
    · obtain ⟨ha, call, hcall, he⟩ := h.erasedData a hmem
      exact ⟨ha, call, List.mem_append_left _ hcall, he⟩
    · obtain ⟨ha, call, hcall, he⟩ := (hms _ hmem a).2 rfl
      exact ⟨ha, call, List.mem_append_right _ hcall, he⟩

/-- An erase is beyond everything that was delivered, so it comes in order. -/
theorem issue (h : j.Orderly offset size calls misuses w s)
    (hfits : Fits capacity offset.toNat size.toNat) {unit : EraseSize}
    (hunit : j.plan.nextSize = some unit) :
    Orderly offset size calls misuses w { j with plan := (j.plan.issue unit s).1 }
      (j.plan.issue unit s).2 := by
  have hcalls := j.plan.calls_issue unit s
  have hmisuses : (j.plan.issue unit s).2.misuses
      = s.misuses ++ s.enableWrite.eraseMisuses j.plan.nextAddress unit := by
    show (s.enableWrite.erase j.plan.nextAddress unit).misuses = _
    rw [Simulator.misuses_erase, Simulator.enableWrite_eq]
  refine h.extend hcalls hmisuses (h.placed.issue hfits hunit) (Nat.le_refl _) ?_ ?_ ?_ ?_
  · intro call hcall a _ hp
    rcases List.mem_cons.mp hcall with rfl | hcall
    · exact hp.elim
    · rw [List.mem_singleton.mp hcall] at hp
      exact hp.elim
  · rintro call hcall a ha he ⟨hfrom, hto⟩
    rcases List.mem_cons.mp hcall with rfl | hcall
    · exact he
    · rw [List.mem_singleton.mp hcall] at he
      -- the erase begins at the frontier, and everything delivered is behind it
      have hstart := ErasePlan.start_le_of_nextAddress_le hfits h.placed.lastSector hunit ha he.1
      have hbehind := h.placed.behind a ha hfrom hto
      omega
  · refine List.pairwise_pair.mpr ?_
    intro a _ hp
    exact hp.elim
  · intro m hm a
    obtain ⟨hne, hdata⟩ := Simulator.mem_eraseMisuses hm a
    refine ⟨hne, fun heq => ⟨(hdata heq).1, .erase j.plan.nextAddress unit, ?_, (hdata heq).2⟩⟩
    exact List.mem_cons_of_mem _ (List.mem_singleton_self _)

/-- The program of a delivery is where its bytes belong, or off the device. -/
theorem programs_deliver (h : j.Spans offset size (delivered w)) {v : Delivery} {a : Nat}
    (hfrom : j.cursor.toNat ≤ a) (hto : a < j.cursor.toNat + v.bytes.length) :
    offset.toNat ≤ a ∧ a < offset.toNat + delivered (w ++ [v]) := by
  have hc := h.cursor
  have ho := offset.toNat_lt
  rw [delivered_concat]
  omega

/-- A delivery reaches only cells that were erased for the span, so it comes in order. -/
theorem deliver (h : j.Orderly offset size calls misuses w s)
    (hfits : Fits capacity offset.toNat size.toNat) {v : Delivery} (hne : v.bytes ≠ [])
    (hlen : v.bytes.length ≤ j.remaining.toNat)
    (hcovers : j.plan.Covers (j.lastSectorOf v.bytes.length)) :
    (j.deliver v s).1.Orderly offset size calls misuses (w ++ [v]) (j.deliver v s).2 := by
  have hmore : delivered w ≤ delivered (w ++ [v]) := by
    rw [delivered_concat]
    exact Nat.le_add_right _ _
  have hprograms : ∀ call ∈ Simulator.programCalls v.storage j.cursor v.bytes, ∀ a < capacity,
      call.Programs a → offset.toNat ≤ a ∧ a < offset.toNat + delivered (w ++ [v]) := by
    intro call hcall a _ hp
    obtain ⟨hfrom, hto⟩ := (DeviceCall.of_mem_programCalls hcall a).2 hp
    exact programs_deliver h.placed.toSpans hfrom hto
  have hplaced := h.placed.deliver hfits hne hlen hcovers
  rw [← delivered_concat] at hplaced
  have hquiet : ∀ m ∈ (FlashDevice.awaitIdle s).deliveryMisuses v.storage j.cursor, ∀ a,
      m ≠ .notErased a ∧ (m = .erasedData a → a < capacity ∧
        ∃ call ∈ Simulator.programCalls v.storage j.cursor v.bytes, call.Erases a) := by
    intro m hm a
    obtain ⟨hne, hdata⟩ := Simulator.mem_deliveryMisuses hm a
    exact ⟨hne, fun heq => absurd heq hdata⟩
  have herases : ∀ call ∈ Simulator.programCalls v.storage j.cursor v.bytes, ∀ a,
      ¬call.Erases a := fun call hcall a => (DeviceCall.of_mem_programCalls hcall a).1
  have hordered : (Simulator.programCalls v.storage j.cursor v.bytes).Pairwise
      fun earlier later => ∀ a < capacity, earlier.Programs a → ¬later.Erases a :=
    List.pairwise_of_forall_mem_list fun _ _ later hlater a _ _ => herases later hlater a
  have hcalls := calls_deliver j v s
  rcases deliver_cases j v s with ⟨-, hin, -, hseen⟩ | ⟨-, -, hseen⟩
  · -- the cells are erased, so no misuse is added for them
    have hcursor := h.placed.toSpans.cursor_eq hfits (List.length_pos_iff.mpr hne) hlen hin
    have hclear : s.cells.unerased j.cursor.toNat v.bytes.length = [] := by
      refine Cells.unerased_eq_nil hin ?_
      intro a ha hfrom hto
      exact h.placed.ready hfits hlen hcovers a ha (by omega) (by omega)
    rw [hclear, List.map_nil, List.append_nil] at hseen
    exact h.extend hcalls hseen hplaced hmore hprograms
      (fun call hcall a _ he => absurd he (herases call hcall a)) hordered hquiet
  · exact h.extend hcalls hseen hplaced hmore hprograms
      (fun call hcall a _ he => absurd he (herases call hcall a)) hordered hquiet

/-- A job is orderly whatever it is used for. -/
theorem upkeep (offset size : UInt32) (calls misuses : Nat)
    (hfits : Fits capacity offset.toNat size.toNat) :
    Upkeep (δ := Simulator capacity) (Orderly offset size calls misuses) :=
  .onSimulator (fun _ _ h => { h with }) (fun h => h.issue hfits) (fun h => h.deliver hfits)
    fun e h => { h with placed := h.placed.note e }

end Orderly
end Job
end NorLoader
