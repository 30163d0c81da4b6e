import StackTape.Proofs.Decoding
import StackTape.Proofs.Invocation

/-!
# What an invocation does to the files

A path leads to at most one file, whether it is there already or not (`FileSystem.nameAt?`), and
writing a file does not change where paths lead (`FileSystem.nameAt?_congr`). So it is known in
advance which files an invocation can write. It writes none of them unless its source has been read,
assembled and compiled and the output can be created, and then the files hold the machine and its
listing and nothing else has changed.
-/

namespace StackTape

/-! ## Files in memory -/

namespace FileSystem

/-- The name of the file that is meant by a place, if a file can be there. -/
def fileName? : Except FileError Place → Option (List String)
  | .ok (.file name _) | .ok (.vacant name) => some name
  | .ok .directory | .ok (.slashed _) | .error _ => none

/-- The name of the file that a path leads to, if there is one or can be one. -/
def nameAt? (fs : FileSystem) (path : String) : Option (List String) :=
  fileName? (fs.locate path)

/-- The content of the file of this name. -/
def content? (fs : FileSystem) (name : List String) : Option ByteArray :=
  fs.files.lookup name

variable {fs : FileSystem} {path : String} {name other : List String} {content : ByteArray}

@[simp]
theorem content?_put_self : (fs.put name content).content? name = some content := by
  simp [content?, put]

theorem lookup_filter_ne (h : other ≠ name) (files : List (List String × ByteArray)) :
    (files.filter fun file => file.1 ≠ name).lookup other = files.lookup other := by
  induction files with
  | nil => rfl
  | cons file files ih =>
    obtain ⟨key, held⟩ := file
    by_cases hkey : key = name
    · have hne : (other == key) = false := by simpa [hkey] using h
      rw [List.filter_cons_of_neg (by simpa using hkey), ih, List.lookup_cons, hne]
    · rw [List.filter_cons_of_pos (by simpa using hkey), List.lookup_cons, List.lookup_cons, ih]

theorem content?_put_of_ne (h : other ≠ name) :
    (fs.put name content).content? other = fs.content? other := by
  have hne : (other == name) = false := by simpa using h
  unfold content? put
  rw [List.lookup_cons, hne]
  exact lookup_filter_ne h fs.files

/-- A place is what its name says: a file is there if it has a content. -/
def Place.Agrees (fs : FileSystem) : Place → Prop
  | .file name content => fs.content? name = some content
  | .vacant name => fs.content? name = none
  | .directory | .slashed _ => True

theorem agrees_of_entry {dir : List String} {component : String} {place : Place}
    (h : fs.entry dir component = .ok place) : place.Agrees fs := by
  unfold entry at h
  split at h
  · cases h
  · split at h
    · next hlookup =>
      cases h
      exact hlookup
    · next hlookup =>
      cases h
      exact hlookup

theorem agrees_of_follow {dir components : List String} {place : Place}
    (h : fs.follow dir components = .ok place) : place.Agrees fs := by
  induction components generalizing dir with
  | nil =>
    cases h
    trivial
  | cons component rest ih =>
    unfold follow at h
    split at h
    · exact ih h
    · split at h
      · exact agrees_of_entry h
      · split at h
        · cases h
          trivial
        · cases h

theorem agrees_of_locate {place : Place} (h : fs.locate path = .ok place) : place.Agrees fs := by
  unfold locate at h
  split at h
  · cases h
  · exact agrees_of_follow h

/-! ### Names of files -/

theorem enter_of_not_special {dir : List String} {component : String}
    (h : ¬(isTrivial component || decide (component = "..") ||
      fs.isDirectory (dir ++ [component])) = true) : enter dir component = dir ++ [component] := by
  simp only [Bool.or_eq_true, not_or, decide_eq_true_eq] at h
  rw [enter, if_neg h.1.1, if_neg h.1.2]

theorem eq_of_fileName?_entry {dir : List String} {component : String}
    (h : fileName? (fs.entry dir component) = some name) : name = dir ++ [component] := by
  unfold entry at h
  split at h
  · cases h
  · split at h <;> cases h <;> rfl

theorem eq_foldl_of_fileName? {dir components : List String}
    (h : fileName? (fs.follow dir components) = some name) : name = components.foldl enter dir := by
  induction components generalizing dir with
  | nil => cases h
  | cons component rest ih =>
    unfold follow at h
    split at h
    · exact ih h
    · next hspecial =>
      split at h
      · next hrest =>
        rw [List.isEmpty_iff.1 hrest, List.foldl_cons, List.foldl_nil,
          enter_of_not_special hspecial]
        exact eq_of_fileName?_entry h
      · split at h <;> cases h

/-- A file is named by what remains of a path to it, from the root or the working directory on, when
its components have been followed. -/
theorem eq_of_nameAt? (h : fs.nameAt? path = some name) :
    name = (components path).foldl enter (fs.origin path) := by
  unfold nameAt? locate at h
  split at h
  · cases h
  · exact eq_foldl_of_fileName? h

/-! ### Reading and writing -/

/-- Reading a path is reading the file that it leads to. -/
theorem read_of_nameAt? (h : fs.nameAt? path = some name) :
    fs.read path =
      match fs.content? name with
      | some content => .ok content
      | none => .error .notFound := by
  unfold nameAt? fileName? at h
  unfold read
  split at h
  · next name' content hplace =>
    cases h
    have hcontent : fs.content? name = some content := agrees_of_locate hplace
    rw [hplace, hcontent]
  · next name' hplace =>
    cases h
    have hcontent : fs.content? name = none := agrees_of_locate hplace
    rw [hplace, hcontent]
  all_goals cases h

/-- Writing a path is putting a content into the file that it leads to. -/
theorem write_of_nameAt? (h : fs.nameAt? path = some name) (content : ByteArray) :
    fs.write path content = .ok (fs.put name content) := by
  unfold nameAt? fileName? at h
  unfold write
  split at h
  case h_1 hplace | h_2 hplace =>
    cases h
    rw [hplace]
  all_goals cases h

/-- Where no file can be, none is written. -/
theorem exists_write_error (h : fs.nameAt? path = none) (content : ByteArray) :
    ∃ e, fs.write path content = .error e := by
  unfold nameAt? fileName? at h
  unfold write
  split at h
  case h_3 hplace | h_4 hplace | h_5 hplace =>
    rw [hplace]
    exact ⟨_, rfl⟩
  all_goals cases h

theorem fileName?_entry (fs fs' : FileSystem) (dir : List String) (component : String) :
    fileName? (fs'.entry dir component) = fileName? (fs.entry dir component) := by
  unfold entry
  split
  · rfl
  · cases fs'.files.lookup (dir ++ [component]) <;>
      cases fs.files.lookup (dir ++ [component]) <;> rfl

section Congruence

variable {fs' : FileSystem} (hworking : fs'.workingDirectory = fs.workingDirectory)
  (hdirectories : fs'.directories = fs.directories)

include hworking hdirectories

theorem fileName?_follow (dir components : List String) :
    fileName? (fs'.follow dir components) = fileName? (fs.follow dir components) := by
  -- the directories are the same, so both sides take the same way
  induction components generalizing dir with
  | nil => rfl
  | cons component rest ih =>
    have hdir : fs'.isDirectory (dir ++ [component]) = fs.isDirectory (dir ++ [component]) := by
      rw [isDirectory, isDirectory, hworking, hdirectories]
    unfold follow
    rw [hdir]
    split
    · exact ih _
    · split
      · exact fileName?_entry fs fs' dir component
      · split <;> rfl

/-- Where a path leads does not depend on what the files hold or on which of them are there. -/
theorem nameAt?_congr : fs'.nameAt? path = fs.nameAt? path := by
  have horigin : fs'.origin path = fs.origin path := by rw [origin, origin, hworking]
  unfold nameAt? locate
  split
  · rfl
  · rw [horigin]
    exact fileName?_follow hworking hdirectories (fs.origin path) (components path)

end Congruence

theorem nameAt?_put : (fs.put name content).nameAt? path = fs.nameAt? path :=
  nameAt?_congr rfl rfl

/-- Two file systems differ in nothing but the files of the given names. -/
structure AgreesExcept (fs fs' : FileSystem) (names : List (List String)) : Prop where
  workingDirectory : fs'.workingDirectory = fs.workingDirectory
  directories : fs'.directories = fs.directories
  content : ∀ other, other ∉ names → fs'.content? other = fs.content? other

theorem agreesExcept_put (fs : FileSystem) (name : List String) (content : ByteArray) :
    AgreesExcept fs (fs.put name content) [name] where
  workingDirectory := rfl
  directories := rfl
  content _ h := content?_put_of_ne (List.ne_of_not_mem_cons h)

theorem AgreesExcept.put {fs' : FileSystem} {names : List (List String)}
    (h : AgreesExcept fs fs' names) (name : List String) (content : ByteArray) :
    AgreesExcept fs (fs'.put name content) (name :: names) where
  workingDirectory := h.workingDirectory
  directories := h.directories
  content other hother := by
    rw [content?_put_of_ne (List.ne_of_not_mem_cons hother)]
    exact h.content other (List.not_mem_of_not_mem_cons hother)

/-- Two paths to one file still lead to one file afterwards. -/
theorem AgreesExcept.read_eq {fs' : FileSystem} {names : List (List String)}
    (h : AgreesExcept fs fs' names) {path' : String} (hpath : fs.nameAt? path = some name)
    (hpath' : fs.nameAt? path' = some name) : fs'.read path = fs'.read path' := by
  have hcongr : ∀ path, fs'.nameAt? path = fs.nameAt? path := fun _ =>
    nameAt?_congr h.workingDirectory h.directories
  rw [read_of_nameAt? ((hcongr path).trans hpath), read_of_nameAt? ((hcongr path').trans hpath')]

/-- A file that has just been written holds what was written. -/
theorem read_put_self (h : fs.nameAt? path = some name) :
    (fs.put name content).read path = .ok content := by
  rw [read_of_nameAt? (nameAt?_put.trans h), content?_put_self]

/-- Writing a file does not change what is read from another one. -/
theorem read_put_of_ne (h : fs.nameAt? path = some name) (hne : name ≠ other) :
    (fs.put other content).read path = fs.read path := by
  rw [read_of_nameAt? (nameAt?_put.trans h), read_of_nameAt? h, content?_put_of_ne hne]

/-! ### Actions on them -/

section Run

variable {α β : Type} {fs' : FileSystem}

theorem run_bind_of_run {x : StateM FileSystem α} {a : α} (h : x.run fs = (a, fs'))
    (f : α → StateM FileSystem β) : (x >>= f).run fs = (f a).run fs' := by
  change (f (x.run fs).1).run (x.run fs).2 = (f a).run fs'
  rw [h]

theorem run_read (fs : FileSystem) (path : String) :
    (FileStore.read path : StateM FileSystem _).run fs = (fs.read path, fs) :=
  rfl

theorem run_write (fs : FileSystem) (path : String) (content : ByteArray) :
    (FileStore.write path content : StateM FileSystem _).run fs =
      match fs.write path content with
      | .ok fs' => (.ok (), fs')
      | .error e => (.error e, fs) :=
  rfl

theorem run_write_of_nameAt? (h : fs.nameAt? path = some name) (content : ByteArray) :
    (FileStore.write path content : StateM FileSystem _).run fs =
      (.ok (), fs.put name content) := by
  rw [run_write, write_of_nameAt? h]

theorem exists_run_write_error (h : fs.nameAt? path = none) (content : ByteArray) :
    ∃ e, (FileStore.write path content : StateM FileSystem _).run fs = (.error e, fs) := by
  obtain ⟨e, he⟩ := exists_write_error h content
  exact ⟨e, by rw [run_write, he]⟩

end Run

end FileSystem

open FileSystem

namespace Invocation

/-! ## The machine of a source -/

/-- The source of an invocation can be read and is a text of a program that compiles to this
machine, with the largest index that is asked for. -/
def Makes (i : Invocation) (fs : FileSystem) (machine : Machine) : Prop :=
  ∃ bytes source p c, fs.read i.input = .ok bytes ∧ String.fromUTF8? bytes = some source ∧
    assemble source = .ok p ∧ compile { maxIndex := i.maxIndex.getD 65536 } p = .ok c ∧
    c.machine = machine

/-- What can be wrong with the source of an invocation. -/
inductive Rejects (i : Invocation) (fs : FileSystem) : Prop where
  | unreadable (e : FileError) (h : fs.read i.input = .error e)
  | notText (bytes : ByteArray) (hread : fs.read i.input = .ok bytes)
      (h : String.fromUTF8? bytes = none)
  | notAssembled (bytes : ByteArray) (source : String) (e : AssemblyError)
      (hread : fs.read i.input = .ok bytes) (htext : String.fromUTF8? bytes = some source)
      (h : assemble source = .error e)
  | notCompiled (bytes : ByteArray) (source : String) (p : Program) (e : CompileError)
      (hread : fs.read i.input = .ok bytes) (htext : String.fromUTF8? bytes = some source)
      (hprogram : assemble source = .ok p)
      (h : compile { maxIndex := i.maxIndex.getD 65536 } p = .error e)

variable {i : Invocation} {fs : FileSystem} {machine : Machine}

theorem rejects_or_makes (i : Invocation) (fs : FileSystem) :
    i.Rejects fs ∨ ∃ machine, i.Makes fs machine := by
  cases hread : fs.read i.input with
  | error e => exact .inl (.unreadable e hread)
  | ok bytes =>
    cases htext : String.fromUTF8? bytes with
    | none => exact .inl (.notText bytes hread htext)
    | some source =>
      cases hprogram : assemble source with
      | error e => exact .inl (.notAssembled bytes source e hread htext hprogram)
      | ok p =>
        cases hcompile : compile { maxIndex := i.maxIndex.getD 65536 } p with
        | error e => exact .inl (.notCompiled bytes source p e hread htext hprogram hcompile)
        | ok c => exact .inr ⟨_, bytes, source, p, c, hread, htext, hprogram, hcompile, rfl⟩

/-- A machine that is made can be read back from its binary form, which is then used up, if the
number of its states is a word. -/
theorem Makes.decode_encode (h : i.Makes fs machine) (hcount : IsWord machine.states.size) :
    Machine.decode machine.encode = .ok (machine, machine.encode.size) := by
  obtain ⟨-, -, p, c, -, -, -, hc, rfl⟩ := h
  obtain ⟨-, sites, σ, hf⟩ := exists_finishes hc
  have hm := hf.wellFormed
  have hread := Machine.decode_encode_left (hm.fits hcount) ByteArray.empty
  rwa [ByteArray.append_empty, hm.stored_eq] at hread

theorem machineOf_of_assemble_error {source : String} {e : AssemblyError}
    (h : assemble source = .error e) : i.machineOf source = ([], .error (.assembly e)) := by
  unfold assemble at h
  unfold machineOf
  cases hread : Assembly.read source with
  | error e' =>
    rw [hread] at h
    cases h
    rfl
  | ok a =>
    rw [hread] at h
    have hprogram : a.program = .error e := h
    simp only [hprogram]

theorem exists_machineOf_of_assemble {source : String} {p : Program} (h : assemble source = .ok p) :
    ∃ events, i.machineOf source = (events,
      match compile { maxIndex := i.maxIndex.getD 65536 } p with
      | .error e => .error (.compile e)
      | .ok c => .ok c.machine) := by
  obtain ⟨a, hread, hprogram⟩ := exists_of_bind_eq_ok h
  unfold machineOf
  rw [hread, ← options_eq]
  simp only [hprogram]
  cases compile i.options p with
  | error e => exact ⟨_, rfl⟩
  | ok c => exact ⟨_, rfl⟩

/-! ## Carrying out an invocation on files in memory -/

theorem run_readSource (i : Invocation) (fs : FileSystem) :
    (i.readSource : StateM FileSystem _).run fs =
      (match fs.read i.input with
      | .error e => .error (.read i.input e)
      | .ok bytes =>
        match String.fromUTF8? bytes with
        | none => .error (.read i.input .notText)
        | some source => .ok source, fs) := by
  unfold readSource
  rw [run_bind_of_run (run_read fs i.input)]
  cases fs.read i.input with
  | error e => rfl
  | ok bytes =>
    dsimp only
    cases String.fromUTF8? bytes <;> rfl

/-- The exit code of an invocation, and the files that it leaves. -/
def outcome (i : Invocation) (fs : FileSystem) : UInt32 × FileSystem :=
  let (report, fs') := (i.execute : StateM FileSystem Report).run fs
  (report.exitCode, fs')

theorem outcome_of_readSource_error {failure : Failure}
    (h : (i.readSource : StateM FileSystem _).run fs = (.error failure, fs)) :
    i.outcome fs = (1, fs) := by
  unfold outcome execute
  rw [run_bind_of_run h]
  rfl

theorem outcome_of_machineOf_error {source : String} {events : List Event} {failure : Failure}
    (hsource : (i.readSource : StateM FileSystem _).run fs = (.ok source, fs))
    (h : i.machineOf source = (events, .error failure)) : i.outcome fs = (1, fs) := by
  unfold outcome execute
  rw [run_bind_of_run hsource]
  simp only [h]
  rfl

/-- Without a machine no file is written. -/
theorem outcome_of_rejects (h : i.Rejects fs) : i.outcome fs = (1, fs) := by
  have hsource := i.run_readSource fs
  cases h with
  | unreadable e h =>
    rw [h] at hsource
    exact outcome_of_readSource_error hsource
  | notText bytes hread h =>
    simp only [hread, h] at hsource
    exact outcome_of_readSource_error hsource
  | notAssembled bytes source e hread htext h =>
    simp only [hread, htext] at hsource
    exact outcome_of_machineOf_error hsource (machineOf_of_assemble_error h)
  | notCompiled bytes source p e hread htext hprogram h =>
    simp only [hread, htext] at hsource
    obtain ⟨events, hmachine⟩ := exists_machineOf_of_assemble (i := i) hprogram
    rw [h] at hmachine
    exact outcome_of_machineOf_error hsource hmachine

/-- With a machine it depends on the outputs alone what becomes of the files. -/
theorem Makes.outcome_eq (h : i.Makes fs machine) {report : Report} {fs' : FileSystem}
    (hwrite : (i.writeOutputs machine : StateM FileSystem _).run fs = (report, fs')) :
    i.outcome fs = (report.exitCode, fs') := by
  obtain ⟨bytes, source, p, c, hread, htext, hprogram, hcompile, rfl⟩ := h
  have hsource := i.run_readSource fs
  simp only [hread, htext] at hsource
  obtain ⟨events, hmachine⟩ := exists_machineOf_of_assemble (i := i) hprogram
  rw [hcompile] at hmachine
  unfold outcome execute
  rw [run_bind_of_run hsource]
  simp only [hmachine]
  rw [run_bind_of_run hwrite]
  rfl

theorem exists_run_writeOutputs_failure (machine : Machine)
    (h : fs.nameAt? i.outputPath = none) :
    ∃ failure, (i.writeOutputs machine : StateM FileSystem _).run fs =
      (⟨[], some failure⟩, fs) := by
  obtain ⟨e, he⟩ := exists_run_write_error h machine.encode
  unfold writeOutputs
  rw [run_bind_of_run he]
  exact ⟨_, rfl⟩

/-- Once the output is written, the listing decides. -/
theorem exists_run_writeOutputs {output : List String} {report : Report} {fs' : FileSystem}
    (h : fs.nameAt? i.outputPath = some output)
    (hlisting : (i.writeListing machine : StateM FileSystem _).run (fs.put output machine.encode) =
      (report, fs')) :
    ∃ events, (i.writeOutputs machine : StateM FileSystem _).run fs =
      (⟨events, report.failure⟩, fs') := by
  unfold writeOutputs
  rw [run_bind_of_run (run_write_of_nameAt? h machine.encode)]
  dsimp only
  rw [run_bind_of_run hlisting]
  exact ⟨_, rfl⟩

theorem run_writeListing_none (h : i.listing = none) :
    (i.writeListing machine : StateM FileSystem _).run fs = (⟨[], none⟩, fs) := by
  unfold writeListing
  rw [h]
  rfl

theorem exists_run_writeListing_failure (machine : Machine) {path : String}
    (h : i.listing = some path) (hpath : fs.nameAt? path = none) :
    ∃ failure, (i.writeListing machine : StateM FileSystem _).run fs =
      (⟨[], some failure⟩, fs) := by
  obtain ⟨e, he⟩ := exists_run_write_error hpath machine.listing.toUTF8
  unfold writeListing
  rw [h]
  dsimp only
  rw [run_bind_of_run he]
  exact ⟨_, rfl⟩

theorem exists_run_writeListing (machine : Machine) {path : String} {listing : List String}
    (h : i.listing = some path) (hpath : fs.nameAt? path = some listing) :
    ∃ events, (i.writeListing machine : StateM FileSystem _).run fs =
      (⟨events, none⟩, fs.put listing machine.listing.toUTF8) := by
  unfold writeListing
  rw [h]
  dsimp only
  rw [run_bind_of_run (run_write_of_nameAt? hpath _)]
  exact ⟨_, rfl⟩

namespace Makes

variable {output : List String} {path : String}

theorem outcome_of_no_output (h : i.Makes fs machine) (hout : fs.nameAt? i.outputPath = none) :
    i.outcome fs = (1, fs) := by
  obtain ⟨failure, hwrite⟩ := exists_run_writeOutputs_failure machine hout
  exact h.outcome_eq hwrite

theorem outcome_of_output (h : i.Makes fs machine) (hout : fs.nameAt? i.outputPath = some output)
    {report : Report} {fs' : FileSystem}
    (hlisting : (i.writeListing machine : StateM FileSystem _).run (fs.put output machine.encode) =
      (report, fs')) : i.outcome fs = (report.exitCode, fs') := by
  obtain ⟨events, hwrite⟩ := exists_run_writeOutputs hout hlisting
  rw [h.outcome_eq hwrite, Report.exitCode, Report.exitCode]

theorem outcome_of_no_listing (h : i.Makes fs machine)
    (hout : fs.nameAt? i.outputPath = some output) (hlisting : i.listing = none) :
    i.outcome fs = (0, fs.put output machine.encode) :=
  h.outcome_of_output hout (run_writeListing_none hlisting)

/-- The output is already there when it turns out that the listing cannot be created. -/
theorem outcome_of_listing_failure (h : i.Makes fs machine)
    (hout : fs.nameAt? i.outputPath = some output) (hlisting : i.listing = some path)
    (hpath : fs.nameAt? path = none) : i.outcome fs = (1, fs.put output machine.encode) := by
  obtain ⟨failure, hrun⟩ := exists_run_writeListing_failure machine hlisting
    (nameAt?_put.trans hpath)
  exact h.outcome_of_output hout hrun

theorem outcome_of_listing {listing : List String} (h : i.Makes fs machine)
    (hout : fs.nameAt? i.outputPath = some output) (hlisting : i.listing = some path)
    (hpath : fs.nameAt? path = some listing) :
    i.outcome fs =
      (0, (fs.put output machine.encode).put listing machine.listing.toUTF8) := by
  obtain ⟨events, hrun⟩ := exists_run_writeListing machine hlisting
    (nameAt?_put.trans hpath)
  exact h.outcome_of_output hout hrun

end Makes

/-- What an invocation does to the files, whatever the order of its arguments. It has one output:
the one it asks for, or the file with the extension `tm` beside its source. Paths lead to the same
file if the same name remains of them when they are followed. If the source gives no machine or the
output cannot be created, the invocation fails and leaves all files as they are. Otherwise it writes
the machine, which can be read back from what is written if its states can be counted by a word. If
it is then only the listing that cannot be created, it fails, but the output is complete; and else
it succeeds, and the listing is written too, over the output if both are the same file. No other
file changes. -/
theorem outcome_file_effects (i : Invocation) (fs : FileSystem) :
    (∀ args, i.WrittenAs args → Arguments.parse args = .ok (.run i)) ∧
    (∃! out, i.Destination out) ∧
    (∀ path name, fs.nameAt? path = some name →
      name = (components path).foldl enter (fs.origin path)) ∧
    (i.Rejects fs ∨ ∃ machine, i.Makes fs machine) ∧
    (i.Rejects fs → i.outcome fs = (1, fs)) ∧
    ∀ out, i.Destination out →
      (fs.nameAt? out = none → i.outcome fs = (1, fs)) ∧
      ∀ machine output, i.Makes fs machine → fs.nameAt? out = some output →
        (IsWord machine.states.size →
          Machine.decode machine.encode = .ok (machine, machine.encode.size)) ∧
        (i.listing = none → ∃ fs', i.outcome fs = (0, fs') ∧
          fs'.read out = .ok machine.encode ∧ fs.AgreesExcept fs' [output]) ∧
        ∀ path, i.listing = some path →
          (fs.nameAt? path = none → ∃ fs', i.outcome fs = (1, fs') ∧
            fs'.read out = .ok machine.encode ∧ fs.AgreesExcept fs' [output]) ∧
          ∀ listing, fs.nameAt? path = some listing → ∃ fs', i.outcome fs = (0, fs') ∧
            fs'.read path = .ok machine.listing.toUTF8 ∧
            (listing ≠ output → fs'.read out = .ok machine.encode) ∧
            fs.AgreesExcept fs' [listing, output] := by
  refine ⟨fun args h => h.parse_eq, i.existsUnique_destination, fun path name => eq_of_nameAt?,
    i.rejects_or_makes fs, outcome_of_rejects, fun out hdestination => ?_⟩
  obtain rfl := destination_iff.1 hdestination
  refine ⟨fun hout => ?_, fun machine output hmakes hout => ⟨hmakes.decode_encode, ?_⟩⟩
  · rcases i.rejects_or_makes fs with h | ⟨machine, h⟩
    · exact outcome_of_rejects h
    · exact h.outcome_of_no_output hout
  · refine ⟨fun hlisting => ?_, fun path hlisting => ⟨fun hpath => ?_, fun listing hpath => ?_⟩⟩
    · exact ⟨_, hmakes.outcome_of_no_listing hout hlisting, read_put_self hout,
        agreesExcept_put fs output _⟩
    · exact ⟨_, hmakes.outcome_of_listing_failure hout hlisting hpath, read_put_self hout,
        agreesExcept_put fs output _⟩
    · refine ⟨_, hmakes.outcome_of_listing hout hlisting hpath,
        read_put_self (nameAt?_put.trans hpath), fun hne => ?_,
        (agreesExcept_put fs output _).put listing _⟩
      rw [read_put_of_ne (nameAt?_put.trans hout) (Ne.symm hne)]
      exact read_put_self hout

/-- A source whose name already has the extension of an output, a source with an indirect access,
and a file that is no source. -/
def sampleFiles : FileSystem :=
  .ofFiles ["home"] [("lib/sum.tm", "PUSH16 258\nPOP8\nACCEPT".toUTF8),
    ("lib/get.asm", "GETARGIND8 0, 2\nACCEPT".toUTF8), ("notes", "to do".toUTF8)]

theorem exists_sum_makes :
    ∃ machine : Machine, machine.states.size = 7 ∧ ∀ output listing,
      (⟨0, "lib/sum.tm", output, listing, none⟩ : Invocation).Makes sampleFiles machine := by
  have hsites : CallSites.ofProgram? [⟨.push .w16, 258, 0, 0⟩, ⟨.pop .w8, 0, 0, 0⟩,
      ⟨.accept, 0, 0, 0⟩] = some ⟨[]⟩ := rfl
  obtain ⟨c, hc⟩ := exists_compile (o := {}) hsites (by decide)
  have hsize : (compile {} [⟨.push .w16, 258, 0, 0⟩, ⟨.pop .w8, 0, 0, 0⟩,
      ⟨.accept, 0, 0, 0⟩]).map (fun c => c.machine.states.size) = .ok 7 := by decide +kernel
  rw [hc] at hsize
  have hread : sampleFiles.read "lib/sum.tm" = .ok "PUSH16 258\nPOP8\nACCEPT".toUTF8 := by rfl
  exact ⟨c.machine, Except.ok.inj hsize, fun output listing =>
    ⟨_, "PUSH16 258\nPOP8\nACCEPT", _, c, hread, by decide +kernel, by decide +kernel, hc, rfl⟩⟩

/-- The indirect access needs indices up to two. -/
def getProgram : Program := [⟨.loadIndirect .args .w8, 0, 2, 0⟩, ⟨.accept, 0, 0, 0⟩]

theorem exists_get_makes (output listing : Option String) :
    ∃ machine, Makes ⟨0, "lib/get.asm", output, listing, some 2⟩ sampleFiles machine := by
  have hsites : CallSites.ofProgram? getProgram = some ⟨[]⟩ := rfl
  obtain ⟨c, hc⟩ := exists_compile (o := { maxIndex := 2 }) hsites (by decide)
  have hread : sampleFiles.read "lib/get.asm" = .ok "GETARGIND8 0, 2\nACCEPT".toUTF8 := by rfl
  exact ⟨c.machine, _, "GETARGIND8 0, 2\nACCEPT", _, c, hread, by decide +kernel,
    by decide +kernel, hc, rfl⟩

theorem get_writtenAs :
    (⟨0, "lib/get.asm", none, some "/home/lib/get.tm", some 2⟩ : Invocation).WrittenAs
      ["--max-index", "2", "lib/get.asm", "--listing=/home/lib/get.tm"] := by
  have hplain : ∀ a ∈ ["2", "lib/get.asm"], Arguments.IsPlain a := by
    intro a ha
    simp only [List.mem_cons, List.not_mem_nil, or_false] at ha
    rcases ha with rfl | rfl <;> exact ⟨by decide, .inr (by decide)⟩
  refine ⟨⟨by decide, by decide, by decide, by decide⟩, [.option .maxIndex "2",
    .input "lib/get.asm", .option .listing "/home/lib/get.tm"], ?_, by constructor <;> decide⟩
  exact .cons (.apart (hplain "2" (by decide))) (.cons (.input (hplain "lib/get.asm" (by decide)))
    (.cons .joined .nil))

/-- A source is replaced by its own machine, a file that is no source is kept, and a listing in a
directory that does not exist fails after the machine has been written. The indirect access is
compiled if indices up to two are allowed, and not if they end at one. Its listing goes over its
machine if an absolute path leads there; without the slash at the front, the path leads nowhere. -/
theorem sampleFiles_effects :
    (∃ (machine : Machine) (fs' : FileSystem), machine.states.size = 7 ∧
      outcome ⟨0, "lib/sum.tm", none, some "sum.txt", none⟩ sampleFiles = (0, fs') ∧
      fs'.read "sum.txt" = .ok machine.listing.toUTF8 ∧
      fs'.read "lib/sum.tm" = .ok machine.encode ∧
      Machine.decode machine.encode = .ok (machine, machine.encode.size) ∧
      fs'.content? ["home", "notes"] = some "to do".toUTF8) ∧
    outcome ⟨0, "notes", none, some "sum.txt", none⟩ sampleFiles = (1, sampleFiles) ∧
    (∃ (machine : Machine) (fs' : FileSystem), machine.states.size = 7 ∧
      outcome ⟨0, "lib/sum.tm", some "./out", some "gone/sum.txt", none⟩ sampleFiles = (1, fs') ∧
      fs'.read "./out" = .ok machine.encode ∧
      fs'.content? ["home", "lib", "sum.tm"] = some "PUSH16 258\nPOP8\nACCEPT".toUTF8) ∧
    (∃ (machine : Machine) (fs' : FileSystem) (i : Invocation),
      Arguments.parse ["--max-index", "2", "lib/get.asm", "--listing=/home/lib/get.tm"] =
        .ok (.run i) ∧
      i.Makes sampleFiles machine ∧ i.outcome sampleFiles = (0, fs') ∧
      fs'.read "lib/get.tm" = .ok machine.listing.toUTF8 ∧
      fs'.content? ["home", "lib", "get.asm"] = some "GETARGIND8 0, 2\nACCEPT".toUTF8) ∧
    outcome ⟨0, "lib/get.asm", none, none, some 1⟩ sampleFiles = (1, sampleFiles) ∧
    ∃ (machine : Machine) (fs' : FileSystem),
      outcome ⟨0, "lib/get.asm", none, some "home/lib/get.tm", some 2⟩ sampleFiles = (1, fs') ∧
      fs'.read "lib/get.tm" = .ok machine.encode := by
  obtain ⟨machine, hsize, hmakes⟩ := exists_sum_makes
  have hword : IsWord machine.states.size := by
    rw [hsize]
    decide
  refine ⟨⟨machine, ?_⟩, ?_, ⟨machine, ?_⟩, ?_, ?_, ?_⟩
  · obtain ⟨-, -, -, -, -, h⟩ :=
      outcome_file_effects ⟨0, "lib/sum.tm", none, some "sum.txt", none⟩ sampleFiles
    obtain ⟨-, h⟩ := h "lib/sum.tm" (destination_iff.2 (by decide))
    obtain ⟨hdecode, -, hlisting⟩ := h machine ["home", "lib", "sum.tm"] (hmakes _ _) rfl
    obtain ⟨fs', hrun, htext, hbinary, hrest⟩ := (hlisting "sum.txt" rfl).2 ["home", "sum.txt"] rfl
    exact ⟨fs', hsize, hrun, htext, hbinary (by decide), hdecode hword,
      hrest.content ["home", "notes"] (by decide)⟩
  · apply (outcome_file_effects _ _).2.2.2.2.1
    exact .notAssembled "to do".toUTF8 "to do" ⟨1, .unknownOpcode "to"⟩ rfl
      (by decide +kernel) (by decide +kernel)
  · obtain ⟨-, -, -, -, -, h⟩ := outcome_file_effects
      ⟨0, "lib/sum.tm", some "./out", some "gone/sum.txt", none⟩ sampleFiles
    obtain ⟨-, h⟩ := h "./out" (.inl rfl)
    obtain ⟨-, -, hlisting⟩ := h machine ["home", "out"] (hmakes _ _) rfl
    obtain ⟨fs', hrun, hbinary, hrest⟩ := (hlisting "gone/sum.txt" rfl).1 rfl
    exact ⟨fs', hsize, hrun, hbinary, hrest.content ["home", "lib", "sum.tm"] (by decide)⟩
  · obtain ⟨machine, hget⟩ := exists_get_makes none (some "/home/lib/get.tm")
    obtain ⟨hparse, -, -, -, -, h⟩ := outcome_file_effects
      ⟨0, "lib/get.asm", none, some "/home/lib/get.tm", some 2⟩ sampleFiles
    obtain ⟨-, h⟩ := h "lib/get.tm" (destination_iff.2 (by decide))
    obtain ⟨-, -, hlisting⟩ := h machine ["home", "lib", "get.tm"] hget rfl
    obtain ⟨fs', hrun, htext, -, hrest⟩ :=
      (hlisting "/home/lib/get.tm" rfl).2 ["home", "lib", "get.tm"] rfl
    have hsame : sampleFiles.nameAt? "lib/get.tm" = some ["home", "lib", "get.tm"] := rfl
    exact ⟨machine, fs', _, hparse _ get_writtenAs, hget, hrun,
      (hrest.read_eq hsame rfl).trans htext, hrest.content ["home", "lib", "get.asm"] (by decide)⟩
  · apply (outcome_file_effects _ _).2.2.2.2.1
    exact .notCompiled "GETARGIND8 0, 2\nACCEPT".toUTF8 "GETARGIND8 0, 2\nACCEPT" getProgram
      (.instruction 0 (.indexBound 2 1)) rfl (by decide +kernel) (by decide +kernel) rfl
  · obtain ⟨machine, hget⟩ := exists_get_makes none (some "home/lib/get.tm")
    obtain ⟨-, -, -, -, -, h⟩ := outcome_file_effects
      ⟨0, "lib/get.asm", none, some "home/lib/get.tm", some 2⟩ sampleFiles
    obtain ⟨-, h⟩ := h "lib/get.tm" (destination_iff.2 (by decide))
    obtain ⟨-, -, hlisting⟩ := h machine ["home", "lib", "get.tm"] hget rfl
    obtain ⟨fs', hrun, hbinary, -⟩ := (hlisting "home/lib/get.tm" rfl).1 rfl
    exact ⟨machine, fs', hrun, hbinary⟩

end Invocation

end StackTape
