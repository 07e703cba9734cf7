import Starfield.Proofs.Frame.Settling

/-!
# Walks that agree

The walk of a tree and the settling of its plan hand out the same slots in the
same order, but they are not the same in everything.  The walk asks questions,
and a node that gets a new slot is written only after the nodes below it have been
vacated, while the plan settles it before them.  The changes differ by this when
one of these nodes held the very slot that was taken, which is then filled
instead of emptied.
-/

namespace Starfield

/-- What a node would write into its slot. -/
def Pass.chunk (pass : Pass) (cell : Cell) : List Value :=
  cell.chunk pass.layout pass.settings.starsPerCell pass.detail

/-- The changes of a walk are those of a plan, except that the slots of some
nodes are filled which the plan has emptied. -/
def Overwrites (pass : Pass) (entries : List Entry)
    (settled walked : Std.TreeMap Nat Change) : Prop :=
  ∀ slot, walked[slot]? = settled[slot]? ∨
    settled[slot]? = some .vacate ∧
      ∃ entry ∈ entries, slot ∈ entry.cell.held ∧
        walked[slot]? = some (.fill (pass.chunk entry.cell))

namespace Overwrites

variable {pass : Pass} {entries entries' : List Entry}
  {first second third : Std.TreeMap Nat Change}

theorem refl (pass : Pass) (entries : List Entry)
    (changes : Std.TreeMap Nat Change) :
    Overwrites pass entries changes changes := fun _ => .inl rfl

theorem trans (h : Overwrites pass entries first second)
    (h' : Overwrites pass entries second third) :
    Overwrites pass entries first third := by
  intro slot
  rcases h' slot with hsame' | ⟨hvacate', hfill'⟩
  · rw [hsame']
    exact h slot
  · rcases h slot with hsame | ⟨_, entry, _, _, hfill⟩
    · exact .inr ⟨hsame ▸ hvacate', hfill'⟩
    · cases hvacate'.symm.trans hfill

theorem mono (h : Overwrites pass entries first second)
    (hentries : entries ⊆ entries') : Overwrites pass entries' first second := by
  intro slot
  refine (h slot).imp_right ?_
  rintro ⟨hvacate, entry, hentry, hfill⟩
  exact ⟨hvacate, entry, hentries hentry, hfill⟩

/-- Changes differ at a slot only when it has been emptied and a node holds it. -/
theorem getElem?_eq (h : Overwrites pass entries first second) {slot : Nat}
    (hslot : first[slot]? = some .vacate →
      ∀ entry ∈ entries, slot ∉ entry.cell.held) :
    second[slot]? = first[slot]? := by
  refine (h slot).resolve_right ?_
  rintro ⟨hvacate, entry, hentry, hheld, _⟩
  exact hslot hvacate entry hentry hheld

/-- What has not been emptied has not been filled. -/
theorem isEmpty_of_empty (h : Overwrites pass entries ∅ second) :
    second.isEmpty = true := by
  rw [Std.TreeMap.isEmpty_iff_forall_not_mem]
  intro slot
  rw [← Std.TreeMap.isSome_getElem?_iff_mem, h.getElem?_eq (by simp)]
  simp

theorem insert (h : Overwrites pass entries first second) (slot : Nat)
    (change : Change) :
    Overwrites pass entries (first.insert slot change)
      (second.insert slot change) := by
  intro other
  rw [Std.TreeMap.getElem?_insert, Std.TreeMap.getElem?_insert]
  split
  · exact .inl rfl
  · exact h other

/-- A slot may be written after others have been vacated and not before. -/
theorem defer {entry : Entry} {slot : Nat} (hentry : entry ∈ entries)
    (hslot : slot ∈ entry.cell.held) (other : Nat)
    (changes : Std.TreeMap Nat Change) :
    Overwrites pass entries
      ((changes.insert slot (.fill (pass.chunk entry.cell))).insert other
        .vacate)
      ((changes.insert other .vacate).insert slot
        (.fill (pass.chunk entry.cell))) := by
  intro third
  simp only [Std.TreeMap.getElem?_insert]
  by_cases hother : other = third
  · subst third
    by_cases hsame : slot = other
    · subst other
      exact .inr ⟨by simp, entry, hentry, hslot, by simp⟩
    · simp [hsame]
  · by_cases hsame : slot = third <;> simp [hother, hsame]

end Overwrites

/-- Two walks have come to the same, but for questions and for slots that are
filled by some nodes instead of emptied. -/
structure Walk.Agrees (pass : Pass) (entries : List Entry)
    (settled walked : Walk) : Prop where
  slots : walked.slots = settled.slots
  stale : walked.stale = settled.stale
  delta : walked.delta = settled.delta
  exhausted : walked.exhausted = settled.exhausted
  changes : Overwrites pass entries settled.changes walked.changes

variable {pass : Pass} {entries entries' : List Entry}
  {settled walked last : Walk}

namespace Walk.Agrees

theorem refl (pass : Pass) (entries : List Entry) (walk : Walk) :
    Agrees pass entries walk walk :=
  ⟨rfl, rfl, rfl, rfl, .refl pass entries walk.changes⟩

theorem trans (h : Agrees pass entries settled walked)
    (h' : Agrees pass entries walked last) : Agrees pass entries settled last :=
  ⟨h'.slots.trans h.slots, h'.stale.trans h.stale, h'.delta.trans h.delta,
    h'.exhausted.trans h.exhausted, h.changes.trans h'.changes⟩

theorem mono (h : Agrees pass entries settled walked)
    (hentries : entries ⊆ entries') : Agrees pass entries' settled walked :=
  { h with changes := h.changes.mono hentries }

/-- Questions make no difference. -/
theorem ask (h : Agrees pass entries settled walked) (asked : List Question) :
    Agrees pass entries settled { walked with asked } :=
  ⟨h.slots, h.stale, h.delta, h.exhausted, h.changes⟩

/-! ## One node -/

section

variable (cell : Cell) (stars sampled : Nat)

theorem claim (h : Agrees pass entries settled walked) :
    (cell.claim pass stars sampled walked).1 =
        (cell.claim pass stars sampled settled).1 ∧
      Agrees pass entries (cell.claim pass stars sampled settled).2
        (cell.claim pass stars sampled walked).2 := by
  obtain ⟨hslots, hstale, hdelta, hexhausted, hchanges⟩ := h
  simp only [Cell.claim, hslots]
  cases cell.tenancy with
  | none =>
      cases settled.slots.acquire? with
      | none => exact ⟨rfl, rfl, hstale, hdelta, rfl, hchanges⟩
      | some taken => exact ⟨rfl, rfl, hstale, hdelta, hexhausted, hchanges⟩
  | some tenancy =>
      have hstale' := congrArg (tenancy.slot :: ·) hstale
      cases pass.compacting with
      | true =>
          cases settled.slots.acquire? with
          | none => exact ⟨rfl, rfl, hstale', hdelta, rfl, hchanges⟩
          | some taken =>
              exact ⟨rfl, rfl, hstale', hdelta, hexhausted, hchanges⟩
      | false =>
          by_cases hsame : tenancy.stars = stars ∧ tenancy.sampled = sampled
          · simp only [hsame, and_self, if_true, Bool.false_eq_true, if_false]
            exact ⟨trivial, hslots, hstale, hdelta, hexhausted, hchanges⟩
          · simp only [hsame, Bool.false_eq_true, if_false]
            exact ⟨trivial, hslots, hstale, hdelta, hexhausted, hchanges⟩

theorem write (h : Agrees pass entries settled walked) (slot : Nat) :
    Agrees pass entries (cell.write pass slot stars sampled settled).2
      (cell.write pass slot stars sampled walked).2 :=
  ⟨h.slots, h.stale, congrArg (· + ((stars : Int) - cell.shown)) h.delta,
    h.exhausted, h.changes.insert _ _⟩

theorem seat (h : Agrees pass entries settled walked) :
    (cell.seat pass stars sampled walked).1 =
        (cell.seat pass stars sampled settled).1 ∧
      Agrees pass entries (cell.seat pass stars sampled settled).2.1
        (cell.seat pass stars sampled walked).2.1 := by
  obtain ⟨hclaim, hclaimed⟩ := h.claim cell stars sampled
  rw [Cell.seat, Cell.seat]
  rcases hwalked : cell.claim pass stars sampled walked with ⟨_ | ⟨slot, isNew⟩, after⟩ <;>
    rcases hsettled : cell.claim pass stars sampled settled with ⟨_ | ⟨slot', isNew'⟩, after'⟩ <;>
    rw [hwalked, hsettled] at hclaim hclaimed <;> cases hclaim
  · exact ⟨rfl, hclaimed⟩
  · exact ⟨rfl, hclaimed.write cell stars sampled slot⟩

theorem vacate (h : Agrees pass entries settled walked) :
    (cell.vacate pass.compacting walked).1 =
        (cell.vacate pass.compacting settled).1 ∧
      Agrees pass entries (cell.vacate pass.compacting settled).2
        (cell.vacate pass.compacting walked).2 := by
  obtain ⟨hslots, hstale, hdelta, hexhausted, hchanges⟩ := h
  rw [Cell.vacate, Cell.vacate]
  cases cell.tenancy with
  | none => exact ⟨rfl, hslots, hstale, hdelta, hexhausted, hchanges⟩
  | some tenancy =>
      have hdelta' := congrArg (· - (tenancy.stars : Int)) hdelta
      cases pass.compacting with
      | true =>
          exact ⟨rfl, hslots, congrArg (tenancy.slot :: ·) hstale, hdelta',
            hexhausted, hchanges⟩
      | false =>
          exact ⟨rfl, congrArg (·.release tenancy.slot) hslots, hstale, hdelta',
            hexhausted, hchanges.insert _ _⟩

end

theorem settle (h : Agrees pass entries settled walked) (drawn : Bool)
    (entry : Entry) :
    (entry.settle pass drawn walked).1 = (entry.settle pass drawn settled).1 ∧
      Agrees pass entries (entry.settle pass drawn settled).2
        (entry.settle pass drawn walked).2 := by
  cases drawn with
  | true =>
      obtain ⟨hcell, hwalk⟩ := h.seat entry.cell entry.shows.1 entry.shows.2
      exact ⟨congrArg (fun cell => { entry with cell }) hcell, hwalk⟩
  | false =>
      obtain ⟨hcell, hwalk⟩ := h.vacate entry.cell
      exact ⟨congrArg (fun cell => { entry with cell }) hcell, hwalk⟩

/-- From walks that agree, a plan comes to the same. -/
theorem settleAll (h : Agrees pass entries settled walked)
    (plan : List (Entry × Bool)) :
    (settleAll pass plan walked).1 = (settleAll pass plan settled).1 ∧
      Agrees pass entries (settleAll pass plan settled).2
        (settleAll pass plan walked).2 := by
  induction plan generalizing settled walked with
  | nil => exact ⟨rfl, h⟩
  | cons head plan ih =>
      obtain ⟨entry, drawn⟩ := head
      have hexhausted := h.exhausted
      cases hsettled : settled.exhausted with
      | true =>
          rw [hsettled] at hexhausted
          rw [settleAll_of_exhausted _ hsettled,
            settleAll_of_exhausted _ hexhausted]
          exact ⟨rfl, h⟩
      | false =>
          rw [hsettled] at hexhausted
          obtain ⟨hentry, hwalk⟩ := h.settle drawn entry
          obtain ⟨hrest, hend⟩ := ih hwalk
          rw [settleAll_cons hsettled, settleAll_cons hexhausted, hentry, hrest]
          exact ⟨rfl, hend⟩

end Walk.Agrees

/-! ## Writing late -/

section

variable {entry : Entry} {cell : Cell} {slot stars sampled : Nat}
  (hentry : entry ∈ entries) (hslot : slot ∈ entry.cell.held)
  (hchunk : pass.chunk cell = pass.chunk entry.cell)

include hentry hslot hchunk

/-- Whether a slot is written before or after a cell is vacated makes no
difference but to this slot. -/
theorem vacate_write (other : Cell) (walk : Walk) :
    (other.vacate pass.compacting
        (cell.write pass slot stars sampled walk).2).1 =
        (other.vacate pass.compacting walk).1 ∧
      Walk.Agrees pass entries
        (other.vacate pass.compacting
          (cell.write pass slot stars sampled walk).2).2
        (cell.write pass slot stars sampled
          (other.vacate pass.compacting walk).2).2 := by
  have hdefer := @Overwrites.defer pass entries entry slot hentry hslot
  rw [← hchunk] at hdefer
  simp only [Cell.vacate]
  cases other.tenancy with
  | none => exact ⟨rfl, .refl pass entries _⟩
  | some tenancy =>
      have hdelta : walk.delta - tenancy.stars + (stars - cell.shown) =
          walk.delta + (stars - cell.shown) - tenancy.stars := by
        omega
      cases pass.compacting with
      | true => exact ⟨rfl, rfl, rfl, hdelta, rfl, .refl pass entries _⟩
      | false =>
          exact ⟨rfl, rfl, rfl, hdelta, rfl,
            hdefer tenancy.slot walk.changes⟩

/-- The same is so of any number of nodes that are vacated. -/
theorem settleAll_write (others : List Entry) (walk : Walk) :
    let vacated := settleAll pass (others.map (·, false)) walk
    let settled := settleAll pass (others.map (·, false))
      (cell.write pass slot stars sampled walk).2
    settled.1 = vacated.1 ∧
      Walk.Agrees pass entries settled.2
        (cell.write pass slot stars sampled vacated.2).2 := by
  intro vacated settled
  induction others generalizing walk with
  | nil => exact ⟨rfl, .refl pass entries _⟩
  | cons other others ih =>
      cases hwalk : walk.exhausted with
      | true =>
          have hwritten : (cell.write pass slot stars sampled
              walk).2.exhausted = true := hwalk
          simp only [vacated, settled, settleAll_of_exhausted _ hwalk,
            settleAll_of_exhausted _ hwritten]
          exact ⟨trivial, .refl pass entries _⟩
      | false =>
          have hwritten : (cell.write pass slot stars sampled
              walk).2.exhausted = false := hwalk
          obtain ⟨hcell, hagrees⟩ :=
            @vacate_write pass entries entry cell slot stars sampled hentry
              hslot hchunk other.cell walk
          obtain ⟨hsame, hend⟩ := hagrees.settleAll (others.map (·, false))
          obtain ⟨hrest, hlast⟩ := ih (other.cell.vacate pass.compacting walk).2
          simp only [vacated, settled, List.map_cons, settleAll_cons hwalk,
            settleAll_cons hwritten, Entry.settle, Bool.false_eq_true, if_false]
          rw [hcell, ← hsame, hrest]
          exact ⟨rfl, hend.trans hlast⟩

end

end Starfield
