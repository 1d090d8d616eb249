import IncludeDeps.Proofs.Tree.Spelling
import IncludeDeps.Tree.Change
import Mathlib.Data.List.TakeWhile

/-!
# Where paths lead

`Tree.walk` follows the pieces of a path with the function `enter`, and fails
with a fault at the first piece that leads nowhere.  This file gives the
successful part of it by rules: `Enters` says where one piece leads from a
directory, and `Follows` puts the pieces in a row.  `walk_eq_ok_iff` is the way
from the program to the rules: a walk succeeds if its pieces are admitted and
`Leads` somewhere.

A path looks at the directories on its way and at what stands at its end, and at
nothing else (`Follows.mono`).  So it leads to the same place in every later
tree that has those directories and something there, whatever else was made or
replaced.
-/

namespace IncludeDeps

/-- The directory that a path is confined to is still there. -/
def Reach.Stands (reach : Reach) (tree : Tree) : Prop :=
  ∀ root, reach = .confined root → tree.get? root = some .directory

theorem ordinary_stands (tree : Tree) (workingDirectory : Location) :
    Reach.Stands (.ordinary workingDirectory) tree := by
  rintro root ⟨⟩

/-- A piece of a path that names something in the directory it stands in. -/
structure IsName (piece : Name) : Prop where
  moves : Tree.staysPut piece = false
  descends : Tree.goesUp piece = false
  short : piece.length ≤ longestName

theorem IsName.ne_nil {piece : Name} (hname : IsName piece) : piece ≠ [] := by
  rintro rfl
  cases hname.moves

/-! ## Steps that may fail -/

theorem bind_eq_ok_iff {ε α β : Type} {first : Except ε α} {next : α → Except ε β} {result : β} :
    first >>= next = .ok result ↔ ∃ value, first = .ok value ∧ next value = .ok result := by
  cases first with
  | error fault => simp [bind, Except.bind]
  | ok value => simp [bind, Except.bind]

theorem bind_eq_error_iff {ε α β : Type} {first : Except ε α} {next : α → Except ε β} {fault : ε} :
    first >>= next = .error fault ↔
      first = .error fault ∨ ∃ value, first = .ok value ∧ next value = .error fault := by
  cases first with
  | error other => simp [bind, Except.bind]
  | ok value => simp [bind, Except.bind]

namespace Tree

variable {tree later : Tree} {reach : Reach} {here there : Location} {piece : Name}
  {pieces : List Name}

/-! ## One piece -/

/-- Where a piece leads from a directory. -/
inductive Enters (tree : Tree) (reach : Reach) (here : Location) : Name → Location → Prop
  /-- An idle piece stays. -/
  | stay {piece : Name} (hidle : staysPut piece = true) : Enters tree reach here piece here
  /-- Two dots go up. -/
  | up {piece : Name} {there : Location} (hmoves : staysPut piece = false)
      (hup : goesUp piece = true) (habove : reach.above here = .ok there) :
      Enters tree reach here piece there
  /-- A name leads to what it names. -/
  | down {piece : Name} (hname : IsName piece)
      (hthere : (tree.get? (here ++ [piece])).isSome = true) :
      Enters tree reach here piece (here ++ [piece])

theorem enter_eq_ok_iff (hstands : reach.Stands tree) :
    tree.enter reach here piece = .ok there ↔
      tree.get? here = some .directory ∧ tree.Enters reach here piece there := by
  unfold enter
  constructor
  · intro h
    split at h
    · next hnone =>
      by_cases hroot : reach = .confined here
      · cases hnone.symm.trans (hstands here hroot)
      · simp [hroot] at h
    · cases h
    · next hhere =>
      refine ⟨hhere, ?_⟩
      split at h
      · next hidle =>
        obtain rfl := Except.ok.inj h
        exact .stay hidle
      · next hmoves =>
        have hmoves := Bool.not_eq_true _ ▸ hmoves
        split at h
        · next hup => exact .up hmoves hup h
        · next hdown =>
          have hdown := Bool.not_eq_true _ ▸ hdown
          split at h
          · cases h
          · next hshort =>
            split at h
            · next hthere =>
              obtain rfl := Except.ok.inj h
              exact .down ⟨hmoves, hdown, Nat.le_of_not_lt hshort⟩ hthere
            · cases h
  · rintro ⟨hhere, henters⟩
    cases henters with
    | stay hidle => simp [hhere, hidle]
    | up hmoves hup habove => simp [hhere, hmoves, hup, habove]
    | down hname hthere =>
        simp [hhere, hname.moves, hname.descends, Nat.not_lt_of_le hname.short, hthere]

/-- Entering a directory fails with `notFound` only if the piece is a name that
names nothing there. -/
theorem enter_eq_notFound_iff (hhere : tree.get? here = some .directory) :
    tree.enter reach here piece = .error .notFound ↔
      IsName piece ∧ tree.get? (here ++ [piece]) = none := by
  unfold enter Reach.above
  simp only [hhere]
  constructor
  · intro h
    split at h
    · cases h
    · next hmoves =>
      split at h
      · split at h <;> cases h
      · next hdown =>
        split at h
        · cases h
        · next hshort =>
          split at h
          · cases h
          · next hthere =>
            exact ⟨⟨Bool.not_eq_true _ ▸ hmoves, Bool.not_eq_true _ ▸ hdown,
              Nat.le_of_not_lt hshort⟩, by simpa using hthere⟩
  · rintro ⟨hname, hnone⟩
    simp [hname.moves, hname.descends, Nat.not_lt_of_le hname.short, hnone]

theorem enter_ne_alreadyExists : tree.enter reach here piece ≠ .error .alreadyExists := by
  unfold enter Reach.above
  repeat' split
  all_goals simp

theorem Enters.isSome (henters : tree.Enters reach here piece there)
    (hhere : tree.get? here = some .directory) : (tree.get? there).isSome = true := by
  cases henters with
  | stay _ => simp [hhere]
  | up _ _ habove =>
      unfold Reach.above at habove
      split at habove
      · cases habove
      · obtain rfl := Except.ok.inj habove
        rcases List.eq_nil_or_concat here with rfl | ⟨above, last, rfl⟩
        · simp
        · rw [List.concat_eq_append] at hhere ⊢
          rw [List.dropLast_concat, get?_eq_directory_of_append (List.cons_ne_nil last [])]
          · rfl
          · simp [hhere]
  | down _ hthere => exact hthere

theorem Enters.mono (henters : tree.Enters reach here piece there)
    (hthere : (later.get? there).isSome = true) : later.Enters reach here piece there := by
  cases henters with
  | stay hidle => exact .stay hidle
  | up hmoves hup habove => exact .up hmoves hup habove
  | down hname _ => exact .down hname hthere

/-! ## Pieces in a row -/

/-- The pieces of a path lead from a location to another, through directories. -/
inductive Follows (tree : Tree) (reach : Reach) : Location → List Name → Location → Prop
  /-- No piece is left. -/
  | done {here : Location} : Follows tree reach here [] here
  /-- The first piece leads on from a directory. -/
  | step {here middle there : Location} {piece : Name} {rest : List Name}
      (hhere : tree.get? here = some .directory) (henters : tree.Enters reach here piece middle)
      (hrest : Follows tree reach middle rest there) : Follows tree reach here (piece :: rest) there

theorem foldlM_enter_eq_ok_iff (hstands : reach.Stands tree) :
    pieces.foldlM (tree.enter reach) here = .ok there ↔ tree.Follows reach here pieces there := by
  induction pieces generalizing here with
  | nil =>
      constructor
      · intro h
        obtain rfl := Except.ok.inj h
        exact .done
      · rintro ⟨⟩
        rfl
  | cons piece rest ih =>
      rw [List.foldlM_cons, bind_eq_ok_iff]
      constructor
      · rintro ⟨middle, hentered, hrest⟩
        obtain ⟨hhere, henters⟩ := (enter_eq_ok_iff hstands).mp hentered
        exact .step hhere henters (ih.mp hrest)
      · rintro ⟨⟩
        next middle hhere henters hrest =>
        exact ⟨middle, (enter_eq_ok_iff hstands).mpr ⟨hhere, henters⟩, ih.mpr hrest⟩

theorem Follows.append_iff {first second : List Name} :
    tree.Follows reach here (first ++ second) there ↔
      ∃ middle, tree.Follows reach here first middle ∧ tree.Follows reach middle second there := by
  induction first generalizing here with
  | nil =>
      refine ⟨fun h => ⟨here, .done, h⟩, ?_⟩
      rintro ⟨middle, ⟨⟩, h⟩
      exact h
  | cons piece rest ih =>
      constructor
      · rintro ⟨⟩
        next onward hhere henters hrest =>
        obtain ⟨middle, hfirst, hsecond⟩ := ih.mp hrest
        exact ⟨middle, .step hhere henters hfirst, hsecond⟩
      · rintro ⟨middle, ⟨⟩, hsecond⟩
        next onward hhere henters hfirst =>
        exact .step hhere henters (ih.mpr ⟨middle, hfirst, hsecond⟩)

/-- Something stands where pieces lead from something. -/
theorem Follows.isSome (hfollows : tree.Follows reach here pieces there)
    (hhere : (tree.get? here).isSome = true) : (tree.get? there).isSome = true := by
  induction hfollows with
  | done => exact hhere
  | step hdirectory henters _ ih => exact ih (henters.isSome hdirectory)

/-- Pieces lead to the same place in a tree that keeps the directories and has
something at their end. -/
theorem Follows.mono (hfollows : tree.Follows reach here pieces there)
    (hkeeps : ∀ location, tree.get? location = some .directory →
      later.get? location = some .directory)
    (hthere : (later.get? there).isSome = true) : later.Follows reach here pieces there := by
  induction hfollows with
  | done => exact .done
  | step hhere henters hrest ih =>
      refine .step (hkeeps _ hhere) (henters.mono ?_) (ih hthere)
      -- the place between is the end, or a directory that the next piece stands in
      cases hrest with
      | done => exact hthere
      | step hmiddle _ _ => simp [hkeeps _ hmiddle]

theorem Follows.eq_of_idle (hfollows : tree.Follows reach here pieces there)
    (hidle : ∀ piece ∈ pieces, staysPut piece = true) : there = here := by
  induction hfollows with
  | done => rfl
  | step _ henters _ ih =>
      obtain ⟨hfirst, hrest⟩ := List.forall_mem_cons.mp hidle
      rw [ih hrest]
      cases henters with
      | stay _ => rfl
      | up hmoves _ _ => cases hmoves.symm.trans hfirst
      | down hname _ => cases hname.moves.symm.trans hfirst

theorem Follows.of_idle (hhere : tree.get? here = some .directory)
    (hidle : ∀ piece ∈ pieces, staysPut piece = true) : tree.Follows reach here pieces here := by
  induction pieces with
  | nil => exact .done
  | cons piece rest ih =>
      obtain ⟨hfirst, hrest⟩ := List.forall_mem_cons.mp hidle
      exact .step hhere (.stay hfirst) (ih hrest)

/-! ## Whole paths -/

/-- The pieces of a path lead to a location from where the path starts. -/
def Leads (tree : Tree) (reach : Reach) (pieces : List Name) (there : Location) : Prop :=
  ∃ start, reach.start (pieces.head? == some []) = .ok start ∧
    tree.Follows reach start pieces there

theorem walk_eq_ok_iff (hstands : reach.Stands tree) :
    tree.walk reach pieces = .ok there ↔
      Path.admit pieces = .ok () ∧ tree.Leads reach pieces there := by
  unfold walk Leads
  constructor
  · intro h
    obtain ⟨_, hadmitted, h⟩ := bind_eq_ok_iff.mp h
    obtain ⟨start, hstart, hfold⟩ := bind_eq_ok_iff.mp h
    exact ⟨hadmitted, start, hstart, (foldlM_enter_eq_ok_iff hstands).mp hfold⟩
  · rintro ⟨hadmitted, start, hstart, hfollows⟩
    refine bind_eq_ok_iff.mpr ⟨(), hadmitted, bind_eq_ok_iff.mpr ⟨start, hstart, ?_⟩⟩
    exact (foldlM_enter_eq_ok_iff hstands).mpr hfollows

/-- Following a path makes nothing, so it never finds that something was there. -/
theorem walk_ne_alreadyExists : tree.walk reach pieces ≠ .error .alreadyExists := by
  have hfold : ∀ start, pieces.foldlM (tree.enter reach) start ≠ .error .alreadyExists := by
    induction pieces with
    | nil => rintro start ⟨⟩
    | cons piece rest ih =>
        intro start h
        rcases bind_eq_error_iff.mp h with hentered | ⟨middle, -, hrest⟩
        · exact enter_ne_alreadyExists hentered
        · exact ih middle hrest
  intro h
  rcases bind_eq_error_iff.mp h with hadmitted | ⟨_, -, h⟩
  · exact Path.admit_ne_alreadyExists pieces hadmitted
  · rcases bind_eq_error_iff.mp h with hstart | ⟨start, -, h⟩
    · unfold Reach.start at hstart
      split at hstart <;> cases hstart
    · exact hfold start h

theorem locate_eq_ok_iff {path : String} (hstands : reach.Stands tree) :
    tree.locate reach path = .ok there ↔
      path ≠ "" ∧ Path.admit (Path.names path) = .ok () ∧
        tree.Leads reach (Path.names path) there := by
  rw [← walk_eq_ok_iff hstands, locate]
  by_cases hempty : path = ""
  · simp [hempty]
  · simp [hempty]

/-- Something stands where a path with pieces leads. -/
theorem Leads.isSome (hleads : tree.Leads reach pieces there) (hpieces : pieces ≠ []) :
    (tree.get? there).isSome = true := by
  obtain ⟨start, -, hfollows⟩ := hleads
  cases hfollows with
  | done => exact absurd rfl hpieces
  | step hhere henters hrest => exact hrest.isSome (henters.isSome hhere)

theorem Leads.mono (hleads : tree.Leads reach pieces there)
    (hkeeps : ∀ location, tree.get? location = some .directory →
      later.get? location = some .directory)
    (hthere : (later.get? there).isSome = true) : later.Leads reach pieces there := by
  obtain ⟨start, hstart, hfollows⟩ := hleads
  exact ⟨start, hstart, hfollows.mono hkeeps hthere⟩

/-- A path goes on with a further piece, unless that makes it absolute. -/
theorem Leads.concat_iff (hrelative : pieces = [] → piece ≠ []) :
    tree.Leads reach (pieces ++ [piece]) there ↔
      ∃ here, tree.Leads reach pieces here ∧ tree.get? here = some .directory ∧
        tree.Enters reach here piece there := by
  have hhead : ((pieces ++ [piece]).head? == some []) = (pieces.head? == some []) := by
    cases pieces with
    | nil => simpa using hrelative rfl
    | cons first rest => rfl
  unfold Leads
  rw [hhead]
  constructor
  · rintro ⟨start, hstart, hfollows⟩
    obtain ⟨here, hfirst, hlast⟩ := Follows.append_iff.mp hfollows
    cases hlast with
    | step hhere henters hdone =>
        cases hdone
        exact ⟨here, ⟨start, hstart, hfirst⟩, hhere, henters⟩
  · rintro ⟨here, ⟨start, hstart, hfirst⟩, hhere, henters⟩
    exact ⟨start, hstart, Follows.append_iff.mpr ⟨here, hfirst, .step hhere henters .done⟩⟩

/-! ## Idle pieces at the end -/

theorem exists_append_dropIdleEnd (pieces : List Name) :
    ∃ idle, pieces = dropIdleEnd pieces ++ idle ∧ ∀ piece ∈ idle, staysPut piece = true := by
  cases pieces with
  | nil => exact ⟨[], rfl, by simp⟩
  | cons first rest =>
      refine ⟨(rest.reverse.takeWhile staysPut).reverse, ?_, fun piece hpiece => ?_⟩
      · rw [dropIdleEnd, List.cons_append, ← List.reverse_append, List.takeWhile_append_dropWhile,
          List.reverse_reverse]
      · exact List.mem_takeWhile_imp (List.mem_reverse.mp hpiece)

theorem dropIdleEnd_isPrefix (pieces : List Name) : dropIdleEnd pieces <+: pieces := by
  obtain ⟨idle, hpieces, -⟩ := exists_append_dropIdleEnd pieces
  exact ⟨idle, hpieces.symm⟩

/-- They make no difference where a path leads to a directory. -/
theorem leads_dropIdleEnd_iff (hthere : tree.get? there = some .directory) :
    tree.Leads reach (dropIdleEnd pieces) there ↔ tree.Leads reach pieces there := by
  have hhead : (dropIdleEnd pieces).head? = pieces.head? := by cases pieces <;> rfl
  obtain ⟨idle, hpieces, hidle⟩ := exists_append_dropIdleEnd pieces
  unfold Leads
  rw [hhead]
  refine exists_congr fun start => and_congr_right fun _ => ?_
  conv_rhs => rw [hpieces, Follows.append_iff]
  constructor
  · exact fun hfollows => ⟨there, hfollows, .of_idle hthere hidle⟩
  · rintro ⟨middle, hfollows, hlast⟩
    rw [hlast.eq_of_idle hidle]
    exact hfollows

theorem walkToDirectory_eq_ok_iff (hstands : reach.Stands tree)
    (hthere : tree.get? there = some .directory) :
    tree.walkToDirectory reach pieces = .ok there ↔
      Path.admit (dropIdleEnd pieces) = .ok () ∧ tree.Leads reach pieces there := by
  rw [← leads_dropIdleEnd_iff hthere, ← walk_eq_ok_iff hstands, walkToDirectory]
  constructor
  · intro h
    obtain ⟨location, hwalk, h⟩ := bind_eq_ok_iff.mp h
    rw [hwalk]
    split at h
    · cases h
    · exact h
    · exact h
  · intro hwalk
    refine bind_eq_ok_iff.mpr ⟨there, hwalk, ?_⟩
    simp only [hthere]

theorem walkToDirectory_directory (hstands : reach.Stands tree) (hpieces : pieces ≠ [])
    (hwalk : tree.walkToDirectory reach pieces = .ok there) :
    tree.get? there = some .directory := by
  obtain ⟨location, hend, h⟩ := bind_eq_ok_iff.mp hwalk
  have hne : dropIdleEnd pieces ≠ [] := by
    cases pieces with
    | nil => exact absurd rfl hpieces
    | cons first rest => exact List.cons_ne_nil first _
  have hlocation := ((walk_eq_ok_iff hstands).mp hend).2.isSome hne
  split at h
  · cases h
  · next hnone => simp [hnone] at hlocation
  · next hdirectory => rwa [← Except.ok.inj h]

end Tree

end IncludeDeps
