import PhasedTests.Files.Table
import PhasedTests.Proofs.Files.Path
import PhasedTests.Proofs.Outcome

/-!
# What file operations change

In a table a path leads where it leads when no file is looked at, be it absolute or seen from the
working directory. Directories are made only where nothing is, so writing a file changes no entry
but that file, and what was written is read back.
-/

namespace PhasedTests.FileTable

open PhasedTests.Path

variable {table : FileTable} {location : Location}

/-! ## Entries -/

/-- The working directory and those above it are no places to put an entry. -/
private theorem isPrefixOf_eq_false (hentry : table.entry? location ≠ some .directory) :
    location.isPrefixOf table.directory = false := by
  rw [← Bool.not_eq_true]
  intro habove
  exact hentry (if_pos habove)

/-- What was put somewhere is there. -/
theorem entry?_put (hentry : table.entry? location ≠ some .directory) (entry : Entry) :
    entry? (table.put location entry) location = some entry := by
  unfold entry? put
  dsimp only
  rw [if_neg (by rw [isPrefixOf_eq_false hentry]; decide), List.lookup_cons_self]

private theorem lookup_filter_ne {other : Location} (hne : other ≠ location)
    (entries : List (Location × Entry)) :
    (entries.filter fun entry => entry.1 != location).lookup other = entries.lookup other := by
  induction entries with
  | nil => rfl
  | cons first entries ih =>
    by_cases hfirst : first.1 = location
    · rw [List.filter_cons_of_neg (by simp [hfirst]), ih, List.lookup_cons,
        beq_false_of_ne (hfirst ▸ hne)]
    · rw [List.filter_cons_of_pos (by simp [hfirst]), List.lookup_cons, List.lookup_cons, ih]

/-- Putting an entry somewhere changes nothing elsewhere. -/
theorem entry?_put_of_ne {other : Location} (hne : other ≠ location) (entry : Entry) :
    entry? (table.put location entry) other = table.entry? other := by
  unfold entry? put
  dsimp only
  rw [List.lookup_cons, beq_false_of_ne hne, lookup_filter_ne hne]

/-! ## Where a path leads -/

/-- Going along segments through directories is reading their components. -/
private theorem fromRoot_of_walk {parts : List (List Char)} {place : Place}
    (hwalk : table.walk (place.fromRoot table.directory) parts = .ok location) :
    ((innerComponents parts).foldl Place.enter place).fromRoot table.directory = location := by
  induction parts generalizing place with
  | nil => exact Except.ok.inj hwalk
  | cons segment rest ih =>
    rw [walk] at hwalk
    split at hwalk
    · cases hwalk
    · cases hwalk
    · split at hwalk
      · rename_i hidle
        rw [innerComponents_cons_of_idle hidle]
        exact ih hwalk
      · rename_i hidle
        rw [innerComponents_cons_of_not_idle (by simpa using hidle), List.foldl_cons]
        unfold innerComponent
        split at hwalk
        · rename_i hparent
          rw [if_pos hparent]
          rw [← Place.fromRoot_parent] at hwalk
          exact ih hwalk
        · rename_i hname
          rw [if_neg hname]
          have hnext : place.fromRoot table.directory ++ [segment] =
              (place.enter (.name segment)).fromRoot table.directory := List.append_assoc _ _ _
          rw [hnext] at hwalk
          exact ih hwalk

/-- A path leads in a table where it leads when no file is looked at. -/
theorem fromRoot_of_locate {path : String} (hlocate : table.locate path = .ok location) :
    (Place.ofComponents (components path.toList)).fromRoot table.directory = location := by
  unfold locate at hlocate
  split at hlocate
  · cases hlocate
  · dsimp only at hlocate
    split at hlocate
    · rename_i habsolute
      rw [← root_cons_innerComponents habsolute]
      exact @fromRoot_of_walk table location _ ⟨true, 0, []⟩ hlocate
    · rename_i hrelative
      have hstart : table.directory = Place.start.fromRoot table.directory := by
        unfold Place.start Place.fromRoot
        simp
      rw [hstart] at hlocate
      have hplace := fromRoot_of_walk hlocate
      rwa [innerComponents_segments (Bool.eq_false_iff.mpr hrelative),
        Place.foldl_enter_filter] at hplace

/-- A new entry where no directory is stands in nobody's way. -/
private theorem walk_put {parts : List (List Char)} {current target : Location}
    (htarget : table.entry? target ≠ some .directory) (entry : Entry)
    (hwalk : table.walk current parts = .ok location) :
    (table.put target entry).walk current parts = .ok location := by
  induction parts generalizing current with
  | nil => exact hwalk
  | cons segment rest ih =>
    rw [walk] at hwalk ⊢
    split at hwalk
    · cases hwalk
    · cases hwalk
    · rename_i hcurrent
      have hne : current ≠ target := by
        rintro rfl
        exact htarget hcurrent
      rw [entry?_put_of_ne hne, hcurrent]
      dsimp only
      split at hwalk
      · rename_i hidle
        rw [if_pos hidle]
        exact ih hwalk
      · rename_i hidle
        rw [if_neg hidle]
        split at hwalk
        · rename_i hparent
          rw [if_pos hparent]
          exact ih hwalk
        · rename_i hname
          rw [if_neg hname]
          exact ih hwalk

/-! ## Writing -/

/-- What a file that could be written did to the table. -/
private theorem put_of_write {written : FileTable} {path text : String}
    (hwrite : table.write path text = .ok written) :
    ∃ location, table.locate path = .ok location ∧ table.entry? location ≠ some .directory ∧
      written = table.put location (.file text) := by
  obtain ⟨location, hlocate, hwrite⟩ := ok_of_bind hwrite
  refine ⟨location, hlocate, ?_⟩
  split at hwrite
  · cases hwrite
  · rename_i hentry
    exact ⟨hentry, (Except.ok.inj hwrite).symm⟩

private theorem read_of_locate {path text : String} (hlocate : table.locate path = .ok location)
    (hentry : table.entry? location = some (.file text)) : table.read path = .ok text := by
  unfold read
  simp only [hlocate, bind, Except.bind, hentry]
  rfl

/-- What was written is read back. -/
private theorem read_of_write {written : FileTable} {path text : String}
    (hwrite : table.write path text = .ok written) : written.read path = .ok text := by
  obtain ⟨location, hlocate, hentry, rfl⟩ := put_of_write hwrite
  have hagain : (table.put location (.file text)).locate path = .ok location := by
    unfold locate at hlocate ⊢
    split at hlocate
    · cases hlocate
    · rename_i hpath
      rw [if_neg hpath]
      exact walk_put hentry _ hlocate
  exact read_of_locate hagain (entry?_put hentry _)

/-- The working directory is the same, and every entry of the first table is still there. -/
structure Keeps (table after : FileTable) : Prop where
  directory : after.directory = table.directory
  entries : ∀ location entry, table.entry? location = some entry →
    after.entry? location = some entry

private theorem Keeps.refl (table : FileTable) : table.Keeps table :=
  ⟨rfl, fun _ _ hentry => hentry⟩

private theorem Keeps.trans {middle last : FileTable} (hfirst : table.Keeps middle)
    (hsecond : middle.Keeps last) : table.Keeps last where
  directory := hsecond.directory.trans hfirst.directory
  entries location entry hentry := hsecond.entries location entry (hfirst.entries _ _ hentry)

private theorem keeps_of_makeDirectory {made : FileTable} {path : String}
    (hmade : table.makeDirectory path = .ok made) : table.Keeps made := by
  obtain ⟨location, hlocate, hmade⟩ := ok_of_bind hmade
  split at hmade
  · cases hmade
  · rename_i hnone
    obtain rfl := Except.ok.inj hmade
    refine ⟨rfl, fun other entry hentry => ?_⟩
    have hne : other ≠ location := by
      rintro rfl
      rw [hnone] at hentry
      cases hentry
    exact (entry?_put_of_ne hne _).trans hentry

/-- Directories are made where nothing was before, whether or not all of them can be made. -/
theorem keeps_makeDirectoriesTo (table : FileTable) (components : List Component) :
    table.Keeps (table.makeDirectoriesTo components).1 := by
  induction components generalizing table with
  | nil => exact .refl table
  | cons last outer ih =>
    have habove := ih table
    rw [makeDirectoriesTo]
    split
    · rename_i hmade
      exact keeps_of_makeDirectory hmade
    · split
      · rename_i hfailed
        rw [hfailed] at habove
        exact habove
      · rename_i hmade
        rw [hmade] at habove
        split
        · rename_i hlast
          exact habove.trans (keeps_of_makeDirectory hlast)
        · split <;> exact habove
    · split <;> exact .refl table

/-- Writing a file with its directories changes no entry but the one at its path. -/
theorem fromRoot_of_writeDeep {files : FileTable} {path text : String} {entry : Entry}
    {result : Except FileFault Unit} (hwrite : table.writeDeep path text = (files, result))
    (hentry : table.entry? location = some entry) (hchanged : files.entry? location ≠ some entry) :
    (Place.ofComponents (components path.toList)).fromRoot table.directory = location := by
  have hkept : table.Keeps (table.makeParents path).1 := keeps_makeDirectoriesTo table _
  unfold writeDeep at hwrite
  split at hwrite
  · rename_i hmade
    obtain rfl := (Prod.mk.inj hwrite).1
    rw [hmade] at hkept
    exact absurd (hkept.entries _ _ hentry) hchanged
  · rename_i hmade
    rw [hmade] at hkept
    split at hwrite
    · rename_i hdone
      obtain rfl := (Prod.mk.inj hwrite).1
      obtain ⟨target, hlocate, -, rfl⟩ := put_of_write hdone
      by_cases hne : location = target
      · rw [hne, ← hkept.directory]
        exact fromRoot_of_locate hlocate
      · exact absurd ((entry?_put_of_ne hne _).trans (hkept.entries _ _ hentry)) hchanged
    · obtain rfl := (Prod.mk.inj hwrite).1
      exact absurd (hkept.entries _ _ hentry) hchanged

/-- A file that has been written with its directories is read back. -/
theorem read_of_writeDeep {written : FileTable} {path text : String}
    (hwrite : table.writeDeep path text = (written, .ok ())) : written.read path = .ok text := by
  unfold writeDeep at hwrite
  split at hwrite
  · cases hwrite
  · split at hwrite
    · rename_i hdone
      obtain rfl := (Prod.mk.inj hwrite).1
      exact read_of_write hdone
    · cases hwrite

end PhasedTests.FileTable
