import Starfield.Proofs.Archive.Reload

/-!
# Archives that end too early

An archive does not say how long it is, so a reader learns that one has been cut
off only by coming to its end.  The readers here decide on what they have read:
bytes that follow change neither a result nor a fault, unless the fault is that
the bytes have ended.  So what is wrong with a part of an archive can only be that
it has ended, since nothing is wrong with the whole.
-/

namespace Starfield

/-- The bytes have ended although more were expected: one of the numbers or marks
is cut off, or the values that follow them are. -/
inductive StreamFault.Early : StreamFault → Prop
  | ended : Early .ended
  | payloadEnded {depth found expected : Nat} (h : found < expected) :
      Early (.payloadEnded depth found expected)

namespace Archive

variable {α β : Type} {read : Bytes → Except Fault (α × Bytes)}

/-- The reader decides on what it has read.  What follows is left behind a result,
and it can only mend that the bytes have ended too early. -/
structure Steady (read : Bytes → Except Fault (α × Bytes)) : Prop where
  ok : ∀ {bytes x rest}, read bytes = .ok (x, rest) →
    ∀ more, read (bytes ++ more) = .ok (x, rest ++ more)
  error : ∀ {bytes fault}, read bytes = .error fault →
    (∃ why, fault = .stream why ∧ why.Early) ∨
      ∀ more, read (bytes ++ more) = .error fault

namespace Steady

theorem pure (x : α) : Steady fun bytes => .ok (x, bytes) where
  ok h more := by
    cases h
    rfl
  error := nofun

theorem fail (fault : Fault) :
    Steady fun _ => (.error fault : Except Fault (α × Bytes)) where
  ok := nofun
  error h := .inr fun _ => h

/-- One reader after another. -/
theorem bind {next : α × Bytes → Except Fault (β × Bytes)} (h : Steady read)
    (hnext : ∀ x, Steady fun bytes => next (x, bytes)) :
    Steady fun bytes => read bytes >>= next where
  ok {bytes y rest} hok more := by
    obtain ⟨⟨x, left⟩, hread, hrest⟩ := ok_of_bind hok
    exact bind_eq_ok_iff.mpr ⟨_, h.ok hread more, (hnext x).ok hrest more⟩
  error {bytes fault} herror := by
    cases hread : read bytes with
    | error other =>
        rw [hread] at herror
        cases herror
        refine (h.error hread).imp_right fun hmore more => ?_
        rw [hmore more]
        rfl
    | ok here =>
        obtain ⟨x, left⟩ := here
        rw [hread] at herror
        refine ((hnext x).error herror).imp_right fun hmore more => ?_
        rw [h.ok hread more]
        exact hmore more

/-- One of two readers, by what has been read before. -/
theorem ite {c : Prop} [Decidable c] {other : Bytes → Except Fault (α × Bytes)}
    (h : Steady read) (hother : Steady other) :
    Steady fun bytes => if c then read bytes else other bytes := by
  split
  · exact h
  · exact hother

/-- A reader behind a step that reads nothing. -/
theorem step {result : Except Fault β}
    {next : β → Bytes → Except Fault (α × Bytes)}
    (h : ∀ x, Steady (next x)) :
    Steady fun bytes => result >>= fun x => next x bytes := by
  cases result with
  | error fault => exact fail fault
  | ok x => exact h x

theorem thread? {f : Octant → Bytes → Except Fault (α × Bytes)}
    (h : ∀ o, Steady (f o)) : Steady (Octet.thread? f) :=
  (h _).bind fun _ => (h _).bind fun _ => (h _).bind fun _ =>
    (h _).bind fun _ => (h _).bind fun _ => (h _).bind fun _ =>
      (h _).bind fun _ => (h _).bind fun _ => pure _

/-- A part of what is read to its end is only found to end too early. -/
theorem early_of_part (h : Steady read) {part missing : Bytes} {x : α}
    (hwhole : read (part ++ missing) = .ok (x, []))
    (hmissing : missing ≠ []) :
    ∃ why, read part = .error (.stream why) ∧ why.Early := by
  cases hpart : read part with
  | ok front =>
      obtain ⟨y, rest⟩ := front
      have hboth := (h.ok hpart missing).symm.trans hwhole
      rw [Except.ok.injEq, Prod.mk.injEq, List.append_eq_nil_iff] at hboth
      exact absurd hboth.2.2 hmissing
  | error fault =>
      rcases h.error hpart with ⟨why, rfl, hearly⟩ | hmore
      · exact ⟨why, rfl, hearly⟩
      · cases (hmore missing).symm.trans hwhole

end Steady

/-! ## The readers of archives -/

theorem steady_takeNumber : Steady takeNumber where
  ok h more := by
    obtain ⟨word, hsigned, rfl⟩ := takeNumber_eq_ok_iff.mp h
    exact takeNumber_eq_ok_iff.mpr
      ⟨word, hsigned, List.append_assoc _ _ _⟩
  error h := by
    rw [takeNumber] at h
    split at h <;> cases h
    exact .inl ⟨_, rfl, .ended⟩

theorem steady_takeLeafMark (depth : Nat) : Steady (takeLeafMark depth) where
  ok h more := by
    rw [takeLeafMark_eq_ok_iff] at h ⊢
    rw [h, List.cons_append]
  error {bytes fault} h := by
    cases bytes with
    | nil =>
        cases h
        exact .inl ⟨_, rfl, .ended⟩
    | cons mark bytes =>
        refine .inr fun more => ?_
        rw [takeLeafMark] at h
        rw [List.cons_append, takeLeafMark]
        split at h
        · cases h
        split at h
        · cases h
        rename_i hzero hone
        rwa [if_neg hzero, if_neg hone]

theorem steady_takeValues (depth count : Nat) :
    Steady (takeValues depth count) where
  ok h more := by
    obtain ⟨hlength, rfl⟩ := takeValues_eq_ok_iff.mp h
    exact takeValues_eq_ok_iff.mpr
      ⟨hlength, List.append_assoc _ _ _⟩
  error h := by
    rw [takeValues] at h
    split at h
    · rename_i hshort
      cases h
      exact .inl ⟨_, rfl, .payloadEnded hshort⟩
    · cases h

variable {settings : Settings} {layout : Layout}

theorem steady_takeCell (layout : Layout) (capacity depth : Nat) :
    Steady (takeCell layout capacity depth) :=
  (steady_takeLeafMark depth).bind fun _ =>
    steady_takeNumber.bind fun _ => steady_takeNumber.bind fun _ =>
      .ite (.fail _) (.ite (.fail _) (.ite (.fail _)
        ((steady_takeValues depth _).bind fun _ => .pure _)))

theorem steady_takeNode (levels depth : Nat) :
    Steady (takeNode settings layout levels depth) := by
  induction levels generalizing depth with
  | zero =>
      refine (steady_takeCell _ _ _).bind fun ⟨isLeaf, cell⟩ => ?_
      cases isLeaf with
      | true => exact .pure (Node.leaf cell)
      | false => exact .fail (.corrupt (.depthLimit _ _))
  | succ levels ih =>
      refine (steady_takeCell _ _ _).bind fun ⟨isLeaf, cell⟩ => ?_
      cases isLeaf with
      | true => exact .pure (Node.leaf cell)
      | false =>
          have hchildren : Steady fun bytes =>
              Octet.thread?
                (fun _ => takeNode settings layout levels (depth + 1)) bytes >>=
                fun front => .ok (Node.ofOctet cell front.1, front.2) :=
            (Steady.thread? fun _ => ih (depth + 1)).bind fun children =>
              .pure (Node.ofOctet cell children)
          exact hchildren

end Archive

namespace Tree

theorem steady_decodeFront (settings : Settings) (layout : Layout) :
    Archive.Steady (decodeFront settings layout) :=
  Archive.steady_takeNumber.bind fun _ => .ite (.fail _)
    (Archive.steady_takeNumber.bind fun _ => .ite (.fail _) (.step fun _ =>
      (Archive.Steady.thread? fun _ => Archive.steady_takeNode _ _).bind
        fun _ => .pure _))

variable {tree : Tree}

/-- Of what has been written for a tree, a part is always found to end too early,
wherever it has been cut off, and only a part is. -/
theorem Reachable.truncated (h : Reachable tree) (hfits : tree.Writable)
    {part : Bytes} (hpart : part <+: tree.encode) :
    (∃ why, Tree.decode tree.settings tree.layout part =
        .error (.stream why) ∧ why.Early) ↔ part ≠ tree.encode := by
  obtain ⟨missing, hencode⟩ := hpart
  have hwhole : decodeFront tree.settings tree.layout tree.encode =
      .ok (tree.bare, []) := by
    have hread := (h.archived_bare hfits).decodeFront_encode_append rfl []
    rwa [List.append_nil, encode_bare] at hread
  rw [decode_eq_map_decodeFront]
  constructor
  · rintro ⟨why, herror, _⟩ rfl
    rw [hwhole] at herror
    cases herror
  · intro hne
    have hmissing : missing ≠ [] := by
      rintro rfl
      exact hne (by rwa [List.append_nil] at hencode)
    rw [← hencode] at hwhole
    obtain ⟨why, herror, hearly⟩ :=
      (steady_decodeFront tree.settings tree.layout).early_of_part hwhole
        hmissing
    refine ⟨why, ?_, hearly⟩
    rw [herror]
    rfl

/-- What is written for a tree that a failed frame has left behind is cut off
within the position of its first star. -/
theorem truncated_crowdedTwice :
    ∃ why, Tree.decode crowdedSettings {} (crowdedTwice.encode.take 20) =
      .error (.stream why) ∧ why.Early := by
  have hsettings : crowdedTwice.settings = crowdedSettings := rfl
  have hlayout : crowdedTwice.layout = {} := rfl
  rw [← hsettings, ← hlayout]
  exact (Reachable.truncated managed_crowdedTwice.reachable writable_crowdedTwice
    (List.take_prefix 20 crowdedTwice.encode)).mpr (by decide +kernel)

end Tree

end Starfield
