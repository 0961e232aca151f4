import NorLoader.Proofs.Host.DeviceUse

/-!
# The first error

Data is acknowledged before it is written, so what goes wrong then is kept and told later.  Only the
writing of a block that was taken can leave an error (`error_after_of_not_taken`,
`error_respond`), and an error that is kept is never replaced (`Job.kept_upkeep`).  So a session has
one first error at most, and whatever is acknowledged after it, or closed, tells that one.
-/

namespace NorLoader

/-- A job that keeps an error does not take another. -/
theorem Job.note_of_kept {j : Job} {e : JobError} (h : j.error = some e) (e' : JobError) :
    j.note e' = j := by
  simp only [note, h]

/-- The first error is the one that stays. -/
theorem Job.kept_upkeep {δ : Type} [FlashDevice δ] (e : JobError) :
    Upkeep (δ := δ) fun _ j _ => j.error = some e where
  poll h := h
  issue h _ := h
  deliver := by
    intro w j d v h _ _ _
    rcases j.job_deliver v d with hjob | hjob
    · rw [hjob]
      exact h
    · rw [hjob, note_of_kept h]
      exact h
  note e' h := by
    rw [note_of_kept h]
    exact h

/-- A sequence that begins with nothing and keeps the first value that it gets has that value from
    some place on. -/
theorem exists_first_of_kept {α : Type} [Nonempty α] {f : Nat → Option α} (hzero : f 0 = none)
    (hkept : ∀ k a, f k = some a → f (k + 1) = some a) (len : Nat) :
    ∃ n a, (∀ k ≤ len, f k = if k ≤ n then none else some a) ∧
      (n < len → f n = none ∧ f (n + 1) ≠ none) := by
  induction len with
  | zero =>
      obtain ⟨a⟩ := ‹Nonempty α›
      refine ⟨0, a, ?_, fun habs => absurd habs (Nat.lt_irrefl 0)⟩
      intro k hk
      rw [Nat.le_zero.mp hk, hzero]
      rfl
  | succ len ih =>
      obtain ⟨n, a, hvalues, hfirst⟩ := ih
      have hlast := hvalues len (Nat.le_refl len)
      by_cases hn : n < len
      · -- there is a value already
        rw [if_neg (Nat.not_le.mpr hn)] at hlast
        refine ⟨n, a, ?_, fun _ => hfirst hn⟩
        intro k hk
        rcases Nat.lt_or_eq_of_le hk with hlt | rfl
        · exact hvalues k (Nat.le_of_lt_succ hlt)
        · rw [hkept len a hlast, if_neg (by omega)]
      · rw [if_pos (Nat.le_of_not_lt hn)] at hlast
        have hbefore : ∀ k ≤ len, f k = none := by
          intro k hk
          rw [hvalues k hk, if_pos (by omega)]
        cases hnext : f (len + 1) with
        | none =>
            refine ⟨len + 1, a, ?_, fun habs => absurd habs (Nat.lt_irrefl _)⟩
            intro k hk
            rw [if_pos hk]
            rcases Nat.lt_or_eq_of_le hk with hlt | rfl
            · exact hbefore k (Nat.le_of_lt_succ hlt)
            · exact hnext
        | some b =>
            refine ⟨len, b, ?_, fun _ => ⟨hlast, by rw [hnext]; nofun⟩⟩
            intro k hk
            rcases Nat.lt_or_eq_of_le hk with hlt | rfl
            · rw [hbefore k (Nat.le_of_lt_succ hlt), if_pos (Nat.le_of_lt_succ hlt)]
            · rw [hnext, if_neg (by omega)]

namespace Controller

variable {capacity : Nat}

/-! ## What can leave an error -/

/-- Nothing that happens in a session makes its job forget an error. -/
theorem kept_upkeep (e : JobError) :
    @SessionUpkeep capacity (fun _ j _ => j.error = some e) where
  toUpkeep := Job.kept_upkeep e
  close h _ := h
  switch _ h := h

/-- No request leaves an error before it is answered. -/
theorem error_respond (c : Controller (Simulator capacity)) {r : Request} (hr : r.span? = none) :
    (c.respond r).2.loader.job.error = c.loader.job.error := by
  cases r with
  | query => rfl
  | start => exact nomatch hr
  | startPacked => exact nomatch hr
  | data b =>
      rw [show (c.respond (.data b)).2.loader = c.loader from c.loader_receive b]
  | finish => exact (Job.finish_kept _).1
  | reboot => rfl

/-- A session begins without an error, whether or not its job was opened. -/
theorem Opens.error {r : Request} {size offset : UInt32} {c c' : Controller (Simulator capacity)}
    (h : Opens r size offset c c') : c'.loader.job.error = none := by
  rcases h.job with ⟨-, hjob, -⟩ | ⟨-, hjob, -⟩
  · rw [hjob]
    rfl
  · rw [hjob]
    rfl

/-- The first error of a session is kept to its end and told whenever something is acknowledged, and
    nothing else is.  From the opening of a job, or the attempt to, up to the next one, there is an
    event before and at which no error is kept, and after which it is always the same one; if the
    session goes on so long, a block is taken at that event, and the error comes from writing it.
    Each block that is taken is acknowledged with success up to that event, which includes the block
    that fails itself, and with the first error from then on.  So is the closing of a job that has
    all its bytes; the closing of one that has not is refused, and changes nothing. -/
theorem first_error_told (d : Simulator capacity) (before : List Event) {opening : Event}
    {session : List Event} (hopening : opening.opens = true)
    (hsession : ∀ e ∈ session, e.opens = false) :
    let opened := (powerOn d).run (before ++ [opening])
    let state (k : Nat) := opened.run (session.take k)
    ∃ (n : Nat) (error : JobError),
      (∀ k ≤ session.length, (state k).loader.job.error = if k ≤ n then none else some error) ∧
      (∀ e, session[n]? = some e → ∃ b, (state n).taken? e = some b) ∧
      (∀ k r, session[k]? = some (.request r) →
        ((state k).respond r).2.loader.job.error = (state k).loader.job.error) ∧
      (∀ k b, session[k]? = some (.request (.data b)) →
        (state k).taken? (.request (.data b)) = some b →
        ((state k).execute (.data b)).1 = .ack (if k ≤ n then .ok else .failed error)) ∧
      ∀ k, session[k]? = some (.request .finish) → (state k).loader.job.active = true →
        ((state k).loader.job.remaining = 0 →
          (state k).execute .finish = (.ack (if k ≤ n then .ok else .failed error),
            { state k with loader := { (state k).loader with
              job := { (state k).loader.job with active := false } } })) ∧
        ((state k).loader.job.remaining ≠ 0 →
          (state k).execute .finish = (.ack (.failed .shortData), state k)) := by
  intro opened state
  obtain ⟨r, size, offset, rfl, hspan⟩ := opening.opens_iff.mp hopening
  -- one event of the session
  have hstep : ∀ k e, session[k]? = some e → state (k + 1) = (state k).after e :=
    fun k e hplace => opened.run_take_succ hplace
  have hwithin : ∀ k (e : Event), session[k]? = some e → e.opens = false := fun k e hplace =>
    hsession e (List.mem_of_getElem? hplace)
  have hkept : ∀ k error, (state k).loader.job.error = some error →
      (state (k + 1)).loader.job.error = some error := by
    intro k error herror
    cases hplace : session[k]? with
    | some e =>
        obtain ⟨-, -, hstays⟩ :=
          (kept_upkeep error).after (w := []) (hwithin k e hplace) herror
        rw [hstep k e hplace]
        exact hstays
    | none =>
        have hend : session.take (k + 1) = session.take k := by
          rw [List.take_add_one, hplace, Option.toList_none, List.append_nil]
        simp only [state, hend]
        exact herror
  have hbegins : (state 0).loader.job.error = none :=
    ((powerOn d).run_opening before hspan).error
  obtain ⟨n, error, herrors, hfirst⟩ :=
    @exists_first_of_kept _ ⟨.noJob⟩ (fun k => (state k).loader.job.error) hbegins hkept
      session.length
  -- what is told of the error that is kept at an event
  have htold : ∀ k e, session[k]? = some e →
      Ack.ofKept (state k).loader.job.error = if k ≤ n then .ok else .failed error := by
    intro k e hplace
    have hlt : k < session.length := (List.getElem?_eq_some_iff.mp hplace).1
    rw [herrors k (Nat.le_of_lt hlt)]
    split <;> rfl
  refine ⟨n, error, herrors, ?_, ?_, ?_, ?_⟩
  · intro e hplace
    obtain ⟨hnone, hsome⟩ := hfirst (List.getElem?_eq_some_iff.mp hplace).1
    cases htaken : (state n).taken? e with
    | some b => exact ⟨b, rfl⟩
    | none =>
        obtain ⟨-, -, -, hsame, -⟩ := after_of_not_taken (hwithin n e hplace) htaken
        rw [← hstep n e hplace] at hsame
        exact absurd (hsame.trans hnone) hsome
  · intro k r hplace
    have hspan : r.span? = none := by simpa [Event.opens] using hwithin k _ hplace
    exact error_respond _ hspan
  · intro k b hplace htaken
    have hstored : ((state k).receive b).1.toStore ≠ none := by
      intro hnone
      simp only [taken?, hnone, if_true] at htaken
      cases htaken
    rw [← htold k _ hplace]
    exact receive_answer hstored
  · intro k hplace hactive
    refine ⟨fun hremaining => ?_, fun hremaining => finish_of_short _ hactive hremaining⟩
    rw [← htold k _ hplace]
    exact finish_of_complete _ hactive hremaining

/-- The second of three blocks is the one that fails, and the third is told.  The closing in between
    comes too early. -/
theorem first_error_told_of_second_block :
    let d : Simulator 4096 := {}
    let block (seq : UInt32) (payload : List UInt8) : DataBlock :=
      ⟨.plain, seq, Crc32.checksum payload, payload⟩
    let session : List Event := [.request (.data (block 0 [1, 2])), .switch { nextProgram := true },
      .request (.data (block 1 [3])), .request .finish, .request (.data (block 2 [4])),
      .request .finish]
    let opened := (powerOn d).run ([] ++ [.request (.start 4 0)])
    let state (k : Nat) := opened.run (session.take k)
    (∀ k ≤ session.length,
      (state k).loader.job.error = if k ≤ 2 then none else some .programFailed) ∧
      ((state 2).execute (.data (block 1 [3]))).1 = .ack .ok ∧
      (state 3).execute .finish = (.ack (.failed .shortData), state 3) ∧
      ((state 4).execute (.data (block 2 [4]))).1 = .ack (.failed .programFailed) ∧
      ((state 5).execute .finish).1 = .ack (.failed .programFailed) := by
  intro d block session opened state
  obtain ⟨n, error, herrors, -, -, htaken, hclosed⟩ :=
    @first_error_told 4096 d [] (.request (.start 4 0)) session rfl (by decide)
  have hbefore : (state 2).loader.job.error = none := by decide +kernel
  have hthen : (state 3).loader.job.error = some .programFailed := by decide +kernel
  have hn : n = 2 := by
    refine Nat.le_antisymm ?_ ?_
    · refine Nat.le_of_lt_succ (Nat.lt_of_not_le fun habs => ?_)
      have hnone := (herrors 3 (by decide)).trans (if_pos habs)
      exact nomatch hthen.symm.trans hnone
    · refine Nat.le_of_not_lt fun habs => ?_
      have hsome := (herrors 2 (by decide)).trans (if_neg (Nat.not_le.mpr habs))
      exact nomatch hbefore.symm.trans hsome
  subst hn
  have herror : error = .programFailed :=
    Option.some.inj ((herrors 3 (by decide)).symm.trans hthen)
  subst herror
  have hlast := (hclosed 5 rfl (by decide +kernel)).1 (by decide +kernel)
  exact ⟨herrors, htaken 2 _ rfl (by decide +kernel),
    (hclosed 3 rfl (by decide +kernel)).2 (by decide +kernel), htaken 4 _ rfl (by decide +kernel),
    congrArg Prod.fst hlast⟩

end Controller
end NorLoader
