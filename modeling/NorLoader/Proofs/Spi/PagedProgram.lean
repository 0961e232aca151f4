import NorLoader.Proofs.Spi.WriteOrder

/-!
# Programs that go over pages

A chip that is given more than fits in the rest of a page wraps inside it, so the driver cuts the bytes
at the page borders and programs one page after the other.  Nothing of them is lost that way, none goes
elsewhere, and no page is left empty (`TilesPages`, of which `pages_tile` says that it holds wherever
the range begins and ends).  Over the bus each page is one command behind a write enable, and what
follows it are status reads up to one that shows the chip idle (`log_programPage`).
-/

namespace NorLoader

/-! ## Pages -/

/-- Pieces, each with its address, that lie end to end from `start` on and hold some bytes, none of
    them over the border of a page and only the first one inside of a page. -/
structure TilesPages (start : Nat) (data : List UInt8) (pieces : List (Nat × List UInt8)) : Prop where
  contiguous : ∀ before piece after, pieces = before ++ piece :: after →
    piece.1 = start + (before.flatMap Prod.snd).length
  whole : pieces.flatMap Prod.snd = data
  nonempty : ∀ piece ∈ pieces, piece.2 ≠ []
  inside : ∀ piece ∈ pieces, piece.1 % pageSize + piece.2.length ≤ pageSize
  aligned : ∀ piece ∈ pieces.tail, piece.1 % pageSize = 0

namespace TilesPages

theorem nil (start : Nat) : TilesPages start [] [] where
  contiguous := by
    intro before piece after h
    exact absurd h.symm (List.append_ne_nil_of_right_ne_nil _ (List.cons_ne_nil _ _))
  whole := rfl
  nonempty := nofun
  inside := nofun
  aligned := nofun

/-- A piece in front of others, which begin on a border if there are any. -/
theorem cons {start : Nat} {page data : List UInt8} {pieces : List (Nat × List UInt8)}
    (hne : page ≠ []) (hinside : start % pageSize + page.length ≤ pageSize)
    (hborder : pieces ≠ [] → (start + page.length) % pageSize = 0)
    (h : TilesPages (start + page.length) data pieces) :
    TilesPages start (page ++ data) ((start, page) :: pieces) where
  contiguous := by
    intro before piece after heq
    cases before with
    | nil =>
        obtain ⟨rfl, -⟩ := List.cons.inj heq
        rfl
    | cons first before =>
        obtain ⟨rfl, hrest⟩ := List.cons.inj heq
        rw [h.contiguous before piece after hrest, List.flatMap_cons, List.length_append,
          Nat.add_assoc]
  whole := congrArg (page ++ ·) h.whole
  nonempty := List.forall_mem_cons.mpr ⟨hne, h.nonempty⟩
  inside := List.forall_mem_cons.mpr ⟨hinside, h.inside⟩
  aligned := by
    cases pieces with
    | nil => exact nofun
    | cons piece pieces =>
        have hfirst : piece.1 = start + page.length := h.contiguous [] piece pieces rfl
        refine List.forall_mem_cons.mpr ⟨?_, h.aligned⟩
        rw [hfirst]
        exact hborder (List.cons_ne_nil _ _)

end TilesPages

namespace NorChip

/-- Where a piece goes, and its bytes. -/
def pieceAt (page : UInt32 × List UInt8) : Nat × List UInt8 := (page.1.toNat, page.2)

/-- The bytes of a range that does not go past the last address are cut at the page borders and
    nowhere else. -/
theorem pages_tile (addr : UInt32) (data : List UInt8) (hend : addr.toNat + data.length < 2 ^ 32) :
    TilesPages addr.toNat data ((pages addr data).map pieceAt) := by
  induction addr, data using pages.induct with
  | case1 addr =>
      rw [pages]
      exact .nil _
  | case2 addr b rest room page ih =>
      have hroom : addr.toNat % pageSize < pageSize := Nat.mod_lt _ (by decide)
      have hpage : page.length = min room (rest.length + 1) := List.length_take
      have hnext : (addr + UInt32.ofNat page.length).toNat = addr.toNat + page.length := by
        rw [List.length_cons] at hend
        rw [UInt32.toNat_add, UInt32.toNat_ofNat_of_lt' (by show _ < 4294967296; omega)]
        exact Nat.mod_eq_of_lt (by omega)
      have hrest := ih (by
        rw [hnext, List.length_drop]
        simp only [List.length_cons] at hend ⊢
        omega)
      rw [hnext] at hrest
      have hne : page ≠ [] := List.ne_nil_of_length_pos (by omega)
      have hborder : (pages (addr + UInt32.ofNat page.length) ((b :: rest).drop room)).map pieceAt
          ≠ [] → (addr.toNat + page.length) % pageSize = 0 := by
        intro hmore
        -- if bytes are left, the piece fills its page
        have hleft : room < rest.length + 1 := by
          by_contra hall
          refine hmore ?_
          rw [List.drop_eq_nil_of_le (Nat.le_of_not_lt hall), pages]
          rfl
        have hfull : addr.toNat + page.length = addr.toNat / pageSize * pageSize + pageSize := by
          have hdiv := Nat.div_add_mod' addr.toNat pageSize
          omega
        rw [hfull, Nat.add_mod_right, Nat.mul_mod_left]
      have htiles := TilesPages.cons hne (by omega) hborder hrest
      rw [List.take_append_drop] at htiles
      rw [pages]
      exact htiles

end NorChip

/-! ## Page programs on the bus -/

namespace Transaction

/-- Whether a transaction is a page program. -/
def isProgram (t : Transaction) : Bool := t.bytes.head? = some NorChip.programOp

/-- The address that a page program carries, and its bytes. -/
def programmed? (t : Transaction) : Option (Nat × List UInt8) :=
  match t.bytes with
  | _ :: high :: middle :: low :: data =>
      if t.isProgram then some (MemoryChip.address high middle low, data) else none
  | _ => none

/-- What a page program needs around it: right before it a look at the idle chip and write enable, and
    behind it, before there is another one, a look that shows the chip idle again. -/
def Settles (before : List Transaction) (t : Transaction) (after : List Transaction) : Prop :=
  t.isProgram = true →
    (∃ earlier status enable, before = earlier ++ [status, enable] ∧ status.showsIdle = true ∧
      enable.bytes = [NorChip.enableWriteOp]) ∧
    ∃ reads ready later, after = reads ++ ready :: later ∧ (∀ r ∈ reads, r.isProgram = false) ∧
      ready.showsIdle = true

/-- What a program needs behind it is right behind it. -/
theorem lasting_settles : Lasting Settles := by
  intro before t after more more' h hprogram
  obtain ⟨⟨earlier, status, enable, rfl, hstatus, henable⟩, reads, ready, later, rfl, hreads, hready⟩ :=
    h hprogram
  refine ⟨⟨more ++ earlier, status, enable, (List.append_assoc _ _ _).symm, hstatus, henable⟩,
    reads, ready, later ++ more', ?_, hreads, hready⟩
  rw [List.append_assoc, List.cons_append]

theorem isProgram_of_isWrite {t : Transaction} (h : t.isWrite = false) : t.isProgram = false := by
  obtain ⟨bytes, answer⟩ := t
  cases bytes with
  | nil => rfl
  | cons op rest =>
      simp only [isWrite, Bool.or_eq_false_iff, decide_eq_false_iff_not] at h
      exact decide_eq_false fun hop => h.1.1.1 (Option.some.inj hop)

end Transaction

/-- A log with one entry that needs something is in order if that entry has it. -/
theorem WellPlaced.of_single {α : Type} {needs : List α → α → List α → Prop} {before after : List α}
    {x : α} (hx : needs before x after)
    (hothers : ∀ y ∈ before ++ after, ∀ b a, needs b y a) :
    WellPlaced needs (before ++ x :: after) := by
  intro b y a heq
  rcases List.append_eq_append_iff.mp heq with ⟨rest, rfl, hrest⟩ | ⟨rest, rfl, hrest⟩
  · rcases List.cons_eq_append_iff.mp hrest with ⟨rfl, hsame⟩ | ⟨rest', rfl, rfl⟩
    · obtain ⟨rfl, rfl⟩ := List.cons.inj hsame
      rw [List.append_nil]
      exact hx
    · exact hothers y (by simp) _ _
  · rcases List.cons_eq_append_iff.mp hrest with ⟨rfl, hsame⟩ | ⟨rest', rfl, rfl⟩
    · obtain ⟨rfl, rfl⟩ := List.cons.inj hsame
      rw [List.append_nil] at hx
      exact hx
    · exact hothers y (by simp) _ _

namespace NorChip

variable {β : Type} [SpiBus β]

/-- A page program as the chip reads it. -/
theorem programmed?_command {page : UInt32 × List UInt8} (h : page.1.toNat < 2 ^ 24)
    (answer : List UInt8) :
    Transaction.programmed? ⟨addressed programOp page.1 ++ page.2, answer⟩
      = some (pieceAt page) := by
  rw [pieceAt, ← address_bytes page.1 h]
  rfl

variable [LawfulSpiBus β]

/-- What goes over the bus for a page. -/
theorem log_programPage (c : NorChip (Tapped β)) (page : UInt32 × List UInt8) :
    ∃ waits status enable command reads ready, (c.programPage page).bus.log
        = c.bus.log ++ ((waits ++ [status, enable]) ++ command :: (reads ++ [ready])) ∧
      (∀ t ∈ waits ++ reads, t.isWrite = false) ∧ status.showsIdle = true ∧
      enable.bytes = [enableWriteOp] ∧ command.bytes = addressed programOp page.1 ++ page.2 ∧
      ready.showsIdle = true := by
  obtain ⟨waits, status, hwait, hwaits, hstatus⟩ := c.log_await
  obtain ⟨answer, henable⟩ := c.await.log_transmit [enableWriteOp]
  obtain ⟨answer', hcommand⟩ := c.enableWrite.log_transmit (addressed programOp page.1 ++ page.2)
  obtain ⟨reads, ready, hread, hreads, hready⟩ :=
    (c.enableWrite.transmit (addressed programOp page.1 ++ page.2)).log_await
  refine ⟨waits, status, ⟨[enableWriteOp], answer⟩,
    ⟨addressed programOp page.1 ++ page.2, answer'⟩, reads, ready, ?_, ?_, hstatus, rfl, rfl, hready⟩
  · rw [programPage, hread, hcommand, show c.enableWrite.bus.log = _ from henable, hwait]
    simp only [List.append_assoc, List.cons_append, List.nil_append]
  · intro t ht
    exact (List.mem_append.mp ht).elim (hwaits t) (hreads t)

/-- Each page adds its command, with what belongs around it. -/
theorem log_pages (ps : List (UInt32 × List UInt8)) (haddr : ∀ page ∈ ps, page.1.toNat < 2 ^ 24)
    (c : NorChip (Tapped β)) :
    ∃ sent, (ps.foldl programPage c).bus.log = c.bus.log ++ sent ∧
      (sent.filter Transaction.isProgram).map Transaction.programmed? = (ps.map pieceAt).map some ∧
      WellPlaced Transaction.Settles sent := by
  induction ps generalizing c with
  | nil => exact ⟨[], (List.append_nil _).symm, rfl, .nil⟩
  | cons page ps ih =>
      obtain ⟨hpage, hrest⟩ := List.forall_mem_cons.mp haddr
      obtain ⟨waits, status, enable, command, reads, ready, hlog, hquiet, hstatus, henable, hcommand,
        hready⟩ := c.log_programPage page
      obtain ⟨sent, hsent, hpieces, hplaced⟩ := ih hrest (c.programPage page)
      -- of what a page adds only its command is a program
      have hothers : ∀ t ∈ (waits ++ [status, enable]) ++ (reads ++ [ready]),
          t.isProgram = false := by
        intro t ht
        refine Transaction.isProgram_of_isWrite ?_
        simp only [List.append_assoc, List.mem_append, List.mem_cons, List.not_mem_nil, or_false] at ht
        rcases ht with ht | (rfl | rfl) | ht | rfl
        · exact hquiet t (List.mem_append_left _ ht)
        · exact Transaction.isWrite_of_showsIdle hstatus
        · exact Transaction.isWrite_of_enables henable
        · exact hquiet t (List.mem_append_right _ ht)
        · exact Transaction.isWrite_of_showsIdle hready
      have hbefore : (waits ++ [status, enable]).filter Transaction.isProgram = [] :=
        List.filter_eq_nil_iff.mpr fun t ht => by
          rw [hothers t (List.mem_append_left _ ht)]
          exact Bool.false_ne_true
      have hafter : (reads ++ [ready]).filter Transaction.isProgram = [] :=
        List.filter_eq_nil_iff.mpr fun t ht => by
          rw [hothers t (List.mem_append_right _ ht)]
          exact Bool.false_ne_true
      have hprogram : command.isProgram = true := by
        rw [Transaction.isProgram, hcommand]
        rfl
      have hpiece : command.programmed? = some (pieceAt page) := by
        obtain ⟨bytes, answer⟩ := command
        obtain rfl : bytes = _ := hcommand
        exact programmed?_command hpage answer
      refine ⟨((waits ++ [status, enable]) ++ command :: (reads ++ [ready])) ++ sent, ?_, ?_, ?_⟩
      · rw [List.foldl_cons, hsent, hlog, List.append_assoc c.bus.log]
      · rw [List.filter_append, List.filter_append, hbefore, List.filter_cons_of_pos hprogram, hafter,
          List.nil_append, List.singleton_append, List.map_cons, hpieces, hpiece]
        rfl
      · refine (WellPlaced.of_single ?_ ?_).append Transaction.lasting_settles hplaced
        · intro _
          refine ⟨⟨waits, status, enable, rfl, hstatus, henable⟩, reads, ready, [], rfl, ?_, hready⟩
          intro r hr
          exact Transaction.isProgram_of_isWrite (hquiet r (List.mem_append_right _ hr))
        · intro t ht _ _ hwrong
          exact nomatch (hothers t ht).symm.trans hwrong

/-- A program that would leave the chip is refused before anything goes over the bus.  Any other one
    is carried out: the page programs that go over the bus carry the bytes, one piece a page, to
    the addresses where they belong.  Each comes right after write enable, and that after a status read
    that showed the chip idle; and the chip has shown itself idle again before the next one goes out
    and before the program is done.  The tap has no part in it. -/
theorem program_in_pages (c : NorChip (Tapped β)) (hcapacity : c.capacity ≤ 2 ^ 24) (addr : UInt32)
    (data : List UInt8) :
    let out := c.program addr data
    c.bare.program addr data = (out.1, out.2.bare) ∧
    (c.capacity < addr.toNat + data.length → out = (.error .outside, c)) ∧
    (addr.toNat + data.length ≤ c.capacity → out.1 = .ok () ∧
      ∃ sent pieces, out.2.bus.log = c.bus.log ++ sent ∧
        (sent.filter Transaction.isProgram).map Transaction.programmed? = pieces.map some ∧
        TilesPages addr.toNat data pieces ∧
        ∀ before t after, sent = before ++ t :: after → t.isProgram = true →
          (∃ earlier status enable, before = earlier ++ [status, enable] ∧
            status.showsIdle = true ∧ enable.bytes = [enableWriteOp]) ∧
          ∃ reads ready later, after = reads ++ ready :: later ∧
            (∀ r ∈ reads, r.isProgram = false) ∧ ready.showsIdle = true) := by
  intro out
  refine ⟨bare_map.program addr data c, ?_, ?_⟩
  · intro hleaves
    have hholds : c.holds addr data.length = false := decide_eq_false (Nat.not_le.mpr hleaves)
    simp only [out, program, hholds, Bool.false_eq_true, if_false]
  · intro hfits
    have hholds : c.holds addr data.length = true := decide_eq_true hfits
    have hrun : out = (.ok (), (pages addr data).foldl programPage c) := by
      simp only [out, program, hholds, if_true]
    have htiles := pages_tile addr data (by omega)
    have haddr : ∀ page ∈ pages addr data, page.1.toNat < 2 ^ 24 := by
      intro page hpage
      have hmem := List.mem_map_of_mem (f := pieceAt) hpage
      obtain ⟨before, after, hsplit⟩ := List.append_of_mem hmem
      have hstart := htiles.contiguous before (pieceAt page) after hsplit
      have hne := List.length_pos_iff.mpr (htiles.nonempty (pieceAt page) hmem)
      have hlength := congrArg List.length htiles.whole
      rw [hsplit, List.flatMap_append, List.flatMap_cons, List.length_append, List.length_append]
        at hlength
      show (pieceAt page).1 < 2 ^ 24
      omega
    obtain ⟨sent, hsent, hpieces, hplaced⟩ := log_pages (pages addr data) haddr c
    rw [hrun]
    exact ⟨rfl, sent, (pages addr data).map pieceAt, hsent, hpieces, htiles, hplaced⟩

/-- Bytes on both sides of a page boundary, up to the end of a chip that is busy at first and longer and
    longer after each program; and the same bytes one further on, which do not fit. -/
theorem program_in_pages_to_end :
    let bus : MemoryChip 260 :=
      { array := Vector.replicate 260 0xFF, busy := 2, delays := fun n => n + 1 }
    let c : NorChip (Tapped (MemoryChip 260)) := ⟨260, ⟨bus, []⟩⟩
    let data := [1, 2, 3, 4, 5, 6, 7]
    let out := c.program 253 data
    c.capacity ≤ 2 ^ 24 ∧ c.program 254 data = (.error .outside, c) ∧ out.1 = .ok () ∧
      (out.2.bus.log.filter Transaction.isProgram).map Transaction.programmed?
        = [some (253, [1, 2, 3]), some (256, [4, 5, 6, 7])] ∧
      ∀ before t after, out.2.bus.log = before ++ t :: after → t.isProgram = true →
        ∃ earlier status enable, before = earlier ++ [status, enable] ∧
          status.showsIdle = true ∧ enable.bytes = [enableWriteOp] := by
  intro bus c data out
  have hcapacity : c.capacity ≤ 2 ^ 24 := by decide
  obtain ⟨-, hrefused, -⟩ := program_in_pages c hcapacity 254 data
  obtain ⟨-, -, hdone⟩ := program_in_pages c hcapacity 253 data
  obtain ⟨hok, sent, -, hlog, -, -, hplaced⟩ := hdone (by decide)
  refine ⟨hcapacity, hrefused (by decide), hok, by decide +kernel, ?_⟩
  intro before t after hsplit hprogram
  exact (hplaced before t after (hlog.symm.trans hsplit) hprogram).1

end NorChip
end NorLoader
