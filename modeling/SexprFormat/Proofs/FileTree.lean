import SexprFormat.Command.Run

/-!
Writing to a tree of files. A write changes the contents of one file and nothing about where paths
lead, so writes to different files may be done in any order: `writeAll_comm`.
-/

namespace SexprFormat.FileTree

/-- The tree with new contents for a file. -/
def put (t : FileTree) (found : List String) (contents : List UInt8) : FileTree :=
  { t with files := t.files.map fun (file, old) => (file, if file = found then contents else old) }

theorem lookup_put (t : FileTree) (found file : List String) (contents : List UInt8) :
    (t.put found contents).files.lookup file =
      if file = found then (t.files.lookup file).map fun _ => contents
      else t.files.lookup file := by
  unfold put
  induction t.files with
  | nil => simp
  | cons entry files ih =>
    obtain ⟨name, old⟩ := entry
    simp only [List.map_cons, List.lookup_cons]
    by_cases h : file = name
    · subst h
      simp
      split <;> rfl
    · have other : (file == name) = false := by simpa using h
      simpa [other] using ih

/-- A tree without the contents of its files. -/
def names (t : FileTree) : List (List String) × List (List String) :=
  (t.files.map (·.1), t.directories)

theorem names_put (t : FileTree) (found : List String) (contents : List UInt8) :
    (t.put found contents).names = t.names := by
  simp [names, put]

theorem entryAt_put (t : FileTree) (found : List String) (contents : List UInt8)
    (path : List String) :
    (t.put found contents).entryAt? path = t.entryAt? path := by
  have file : (t.put found contents).isFile path = t.isFile path := by
    rw [isFile, isFile, lookup_put]
    split <;> simp
  have directory : (t.put found contents).isDirectory path = t.isDirectory path := by
    simp [isDirectory, put, List.any_map, Function.comp_def]
  rw [entryAt?, entryAt?, file, directory]

/-- Where a path leads does not depend on the contents of files. -/
theorem resolve_put (t : FileTree) (found : List String) (contents : List UInt8) (path : String) :
    (t.put found contents).resolve path = t.resolve path := by
  have step : (t.put found contents).step = t.step := by
    funext place component
    simp only [FileTree.step, entryAt_put]
  simp only [resolve, follow, step, entryAt_put]

theorem put_comm (t : FileTree) {a b : List String} (h : a ≠ b) (contents contents' : List UInt8) :
    (t.put a contents).put b contents' = (t.put b contents').put a contents := by
  simp only [put, List.map_map, mk.injEq, and_true]
  refine List.map_congr_left fun entry _ => ?_
  grind

section

variable {t : FileTree} {path : Path}

/-- A write to a path that leads nowhere is lost. -/
theorem write_eq (contents : List UInt8) :
    t.write path contents = (t.resolve path.toString).elim t (t.put · contents) := by
  rw [write]
  cases t.resolve path.toString <;> rfl

@[simp] theorem resolve_write (contents : List UInt8) (path' : String) :
    (t.write path contents).resolve path' = t.resolve path' := by
  rw [write_eq]
  cases t.resolve path.toString with
  | none => rfl
  | some found => exact resolve_put ..

theorem names_write (contents : List UInt8) : (t.write path contents).names = t.names := by
  rw [write_eq]
  cases t.resolve path.toString with
  | none => rfl
  | some found => exact names_put ..

theorem lookup_write {file : List String} (h : t.resolve path.toString ≠ some file)
    (contents : List UInt8) : (t.write path contents).files.lookup file = t.files.lookup file := by
  rw [write_eq]
  cases leads : t.resolve path.toString with
  | none => rfl
  | some found =>
    rw [Option.elim_some, lookup_put, if_neg]
    rintro rfl
    exact h leads

theorem read_write {old : List UInt8} (h : t.read? path = some old) (contents : List UInt8) :
    (t.write path contents).read? path = some contents := by
  obtain ⟨found, leads, there⟩ := Option.bind_eq_some_iff.mp h
  rw [read?, resolve_write, write_eq, leads, Option.bind_some, Option.elim_some,
    lookup_put, if_pos rfl,
    there]
  rfl

theorem write_comm {path' : Path} (h : t.resolve path.toString ≠ t.resolve path'.toString)
    (contents contents' : List UInt8) :
    (t.write path contents).write path' contents' =
      (t.write path' contents').write path contents := by
  rw [write_eq contents', write_eq (t := t.write path' contents'), resolve_write,
    resolve_write, write_eq,
    write_eq]
  cases leads : t.resolve path.toString with
  | none => rfl
  | some found =>
    cases leads' : t.resolve path'.toString with
    | none => rfl
    | some found' =>
      refine put_comm t ?_ contents contents'
      rintro rfl
      exact h (leads.trans leads'.symm)

end

/-- Some writes, one after the other. -/
def writeAll (t : FileTree) (writes : List (Path × List UInt8)) : FileTree :=
  writes.foldl (fun t (path, contents) => t.write path contents) t

section

variable {t : FileTree}

theorem writeAll_append (a b : List (Path × List UInt8)) :
    t.writeAll (a ++ b) = (t.writeAll a).writeAll b := List.foldl_append ..

@[simp] theorem resolve_writeAll (writes : List (Path × List UInt8)) (path : String) :
    (t.writeAll writes).resolve path = t.resolve path := by
  induction writes generalizing t with
  | nil => rfl
  | cons first writes ih => exact ih.trans (resolve_write ..)

theorem names_writeAll (writes : List (Path × List UInt8)) :
    (t.writeAll writes).names = t.names := by
  induction writes generalizing t with
  | nil => rfl
  | cons first writes ih => exact ih.trans (names_write ..)

/-- A file that no write leads to keeps its contents. -/
theorem lookup_writeAll {writes : List (Path × List UInt8)} {file : List String}
    (h : ∀ w ∈ writes, t.resolve w.1.toString ≠ some file) :
    (t.writeAll writes).files.lookup file = t.files.lookup file := by
  induction writes generalizing t with
  | nil => rfl
  | cons first writes ih =>
    have later := fun w hw => h w (List.mem_cons_of_mem _ hw)
    exact (ih (by simpa using later)).trans (lookup_write (h first (List.mem_cons_self ..)) _)

theorem read_writeAll_other {writes : List (Path × List UInt8)} {path : Path}
    (h : ∀ w ∈ writes, t.resolve w.1.toString ≠ t.resolve path.toString) :
    (t.writeAll writes).read? path = t.read? path := by
  rw [read?, read?, resolve_writeAll]
  cases leads : t.resolve path.toString with
  | none => rfl
  | some found => exact lookup_writeAll (by rwa [leads] at h)

/-- A write may be done before or after writes to other files. -/
theorem write_writeAll {writes : List (Path × List UInt8)} {path : Path}
    (h : ∀ w ∈ writes, t.resolve w.1.toString ≠ t.resolve path.toString) (contents : List UInt8) :
    (t.write path contents).writeAll writes = (t.writeAll writes).write path contents := by
  induction writes generalizing t with
  | nil => rfl
  | cons first writes ih =>
    have swap := write_comm (h first (List.mem_cons_self ..)) first.2 contents
    have later := fun w hw => h w (List.mem_cons_of_mem _ hw)
    change ((t.write path contents).write first.1 first.2).writeAll writes = _
    rw [← swap]
    exact ih (by simpa using later)

theorem writeAll_comm {a b : List (Path × List UInt8)}
    (h : ∀ v ∈ a, ∀ w ∈ b, t.resolve w.1.toString ≠ t.resolve v.1.toString) :
    (t.writeAll a).writeAll b = (t.writeAll b).writeAll a := by
  induction a generalizing t with
  | nil => rfl
  | cons first a ih =>
    have later := fun v hv => h v (List.mem_cons_of_mem _ hv)
    change ((t.write first.1 first.2).writeAll a).writeAll b = _
    rw [ih (by simpa using later), write_writeAll (h first (List.mem_cons_self ..))]
    rfl

end

end SexprFormat.FileTree
