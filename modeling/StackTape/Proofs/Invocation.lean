import StackTape.CommandLine.Execute
import StackTape.Proofs.Spelling

/-!
# What an invocation asks for

The arguments of a command line fall into requests, and reading them carries out one request after
the other (`parseFrom_spells`). So the order of the requests does not matter, and arguments that ask
for nothing twice give the invocation that they describe (`Invocation.WrittenAs.parse_eq`).

If no path is given for the output, it goes beside the input. `Renamed` says how its name is made:
the extension begins at the last dot of a name, if that is not the first character.
-/

namespace StackTape

/-! ## Requests -/

namespace Arguments

/-- What some of the arguments ask for. -/
inductive Request where
  | verbose
  | input (path : String)
  | option (o : ValueOption) (value : String)
  deriving DecidableEq

/-- An argument that is no option. A single dash is the name of a file. -/
structure IsPlain (a : String) : Prop where
  ne_empty : a ≠ ""
  no_dash : a = "-" ∨ a.toList.head? ≠ some '-'

/-- The arguments that a request consists of. -/
inductive Writes : Request → List String → Prop where
  | verbose : Writes .verbose ["-v"]
  | verboseLong : Writes .verbose ["--verbose"]
  | input {path : String} (h : IsPlain path) : Writes (.input path) [path]
  | outputShort {path : String} (h : IsPlain path) : Writes (.option .output path) ["-o", path]
  | apart {o : ValueOption} {value : String} (h : IsPlain value) :
      Writes (.option o value) [o.name, value]
  | joined {o : ValueOption} {value : String} : Writes (.option o value) [o.name ++ "=" ++ value]

/-- The arguments that requests consist of, one after the other. -/
inductive Spells : List Request → List String → Prop where
  | nil : Spells [] []
  | cons {r : Request} {rs : List Request} {args rest : List String} (h : Writes r args)
      (hrest : Spells rs rest) : Spells (r :: rs) (args ++ rest)

/-- Carry out a request. -/
def Request.apply (s : Settings) : Request → Except UsageError Settings
  | verbose => .ok { s with verbosity := s.verbosity + 1 }
  | input path => s.setInput path
  | option o value => s.set o value

variable {s : Settings} {a value : String} {o : ValueOption} {rest : List String}

namespace IsPlain

theorem isOption_eq_false (h : IsPlain a) : isOption a = false := by
  rcases h.no_dash with rfl | hdash
  · rfl
  · unfold isOption
    split
    · next hlist => simp [hlist] at hdash
    · rfl

theorem ne_dashes (h : IsPlain a) : a ≠ "--" := by
  rintro rfl
  exact absurd h.isOption_eq_false (by decide)

theorem argument_eq (h : IsPlain a) : argument s a = .proceed <$> s.setInput a := by
  rcases h.no_dash with rfl | hdash
  · rfl
  · unfold argument
    split
    · next hlist => simp [hlist] at hdash
    · next hlist => simp [hlist] at hdash
    · rfl

end IsPlain

theorem argument_name : argument s o.name = .ok (.await s o) := by
  cases o <;> rfl

theorem argument_joined : argument s (o.name ++ "=" ++ value) = .proceed <$> s.set o value := by
  cases o <;> simp [argument, ValueOption.name, longOption, valued]

/-- An argument that is complete by itself. -/
theorem parseFrom_cons {set : Except UsageError Settings} (hne : a ≠ "--")
    (h : argument s a = .proceed <$> set) :
    parseFrom .options s (a :: rest) = set >>= fun s => parseFrom .options s rest := by
  rw [parseFrom, if_neg hne, h]
  cases set <;> rfl

/-- An option and its value in the next argument. -/
theorem parseFrom_cons_cons (hne : a ≠ "--") (h : argument s a = .ok (.await s o))
    (hvalue : IsPlain value) :
    parseFrom .options s (a :: value :: rest) =
      s.set o value >>= fun s => parseFrom .options s rest := by
  rw [parseFrom, if_neg hne, h]
  simp only [parseFrom, hvalue.isOption_eq_false]
  rfl

theorem parseFrom_writes {r : Request} {args : List String} (h : Writes r args) :
    parseFrom .options s (args ++ rest) = r.apply s >>= fun s => parseFrom .options s rest := by
  cases h with
  | verbose =>
    have hne : "-v" ≠ "--" := by decide
    exact parseFrom_cons hne (show _ = _ <$> Request.verbose.apply s from rfl)
  | verboseLong =>
    have hne : "--verbose" ≠ "--" := by decide
    exact parseFrom_cons hne (show _ = _ <$> Request.verbose.apply s from rfl)
  | input h => exact parseFrom_cons h.ne_dashes h.argument_eq
  | outputShort h =>
    have hne : "-o" ≠ "--" := by decide
    exact parseFrom_cons_cons hne rfl h
  | @apart o _ h =>
    have hne : o.name ≠ "--" := by cases o <;> decide
    exact parseFrom_cons_cons hne argument_name h
  | @joined o value =>
    have hne : o.name ++ "=" ++ value ≠ "--" := by
      intro heq
      have hlist := congrArg String.toList heq
      cases o <;> simp [ValueOption.name] at hlist
    exact parseFrom_cons hne argument_joined

/-- The requests are carried out in order. -/
theorem parseFrom_spells {rs : List Request} {args : List String} (h : Spells rs args) :
    parseFrom .options s args = rs.foldlM Request.apply s >>= Settings.finish := by
  induction h generalizing s with
  | nil => rfl
  | @cons r rs args rest h hrest ih =>
    rw [parseFrom_writes h, List.foldlM_cons, bind_assoc]
    exact congrArg _ (funext fun s => ih)

/-! ## Invocations -/

/-- The input file that a request names. -/
def Request.input? : Request → Option String
  | input path => some path
  | verbose | option _ _ => none

/-- The value that a request gives to an option. -/
def Request.value? (o : ValueOption) : Request → Option String
  | option o' value => if o' = o then some value else none
  | verbose | input _ => none

/-- What has been set and what is still asked for together describe an invocation. -/
structure Describes (s : Settings) (rs : List Request) (i : Invocation) : Prop where
  verbosity : s.verbosity + rs.count .verbose = i.verbosity
  input : s.input.toList ++ rs.filterMap Request.input? = [i.input]
  output : s.output.toList ++ rs.filterMap (Request.value? .output) = i.output.toList
  listing : s.listing.toList ++ rs.filterMap (Request.value? .listing) = i.listing.toList
  maxIndex : (s.maxIndex.map toString).toList ++ rs.filterMap (Request.value? .maxIndex) =
    (i.maxIndex.map toString).toList

end Arguments

/-- What the arguments can ask for: no path is empty, and the largest index is a word. -/
structure Invocation.IsValid (i : Invocation) : Prop where
  input : i.input ≠ ""
  output : i.output ≠ some ""
  listing : i.listing ≠ some ""
  maxIndex : ∀ n ∈ i.maxIndex, n < 2 ^ 64

theorem Settings.number?_toString {n : Nat} (hn : n < 2 ^ 64) : number? (toString n) = some n := by
  have hread : Literal.digits? 10 (Nat.toDigits 10 n) = some n := by
    rw [Literal.digits?_of_writes (by decide) (.toDigits (by decide) n), if_pos hn]
  unfold number?
  rw [toList_toString]
  split
  · next heq =>
    have hplus : '+' ∈ Nat.toDigits 10 n := by
      rw [heq]
      exact List.mem_cons_self
    exact absurd hplus (not_mem_toDigits rfl n)
  · exact hread

theorem toString_injective : Function.Injective (toString : Nat → String) := by
  intro n m h
  apply toDigits_injective
  rw [← toList_toString, h, toList_toString]

theorem eq_of_toList_eq {α : Type} {x y : Option α} (h : x.toList = y.toList) : x = y := by
  cases y with
  | none => exact Option.toList_eq_nil_iff.1 h
  | some a => exact Option.toList_eq_singleton_iff.1 h

/-- Where there is one thing at most, what comes in is the first and the last. -/
theorem eq_none_of_toList_append_cons {α : Type} {old new : Option α} {a : α} {as : List α}
    (h : old.toList ++ a :: as = new.toList) : old = none ∧ new = some a ∧ as = [] := by
  cases old <;> cases new <;> simp_all

theorem Settings.path_eq (o : ValueOption) {old new : Option String} {value : String}
    {values : List String} (h : old.toList ++ value :: values = new.toList)
    (hnew : new ≠ some "") : path o old value = .ok new ∧ values = [] := by
  obtain ⟨rfl, rfl, hvalues⟩ := eq_none_of_toList_append_cons h
  have hne : value ≠ "" := fun hempty => hnew (congrArg some hempty)
  exact ⟨by simp [path, hne], hvalues⟩

namespace Arguments.Describes

variable {s : Settings} {rs : List Request} {i : Invocation}

/-- A request is carried out if nothing of its kind has been set before. -/
theorem exists_apply {r : Request} (hi : i.IsValid) (h : Describes s (r :: rs) i) :
    ∃ s', r.apply s = .ok s' ∧ Describes s' rs i := by
  obtain ⟨hverbosity, hinput, houtput, hlisting, hmaxIndex⟩ := h
  cases r with
  | verbose =>
    rw [List.count_cons_self] at hverbosity
    exact ⟨_, rfl, by dsimp only; omega, hinput, houtput, hlisting, hmaxIndex⟩
  | input path =>
    have hone : s.input.toList ++ path :: rs.filterMap Request.input? = (some i.input).toList :=
      hinput
    obtain ⟨hnone, hsome, hrest⟩ := eq_none_of_toList_append_cons hone
    obtain rfl := Option.some.inj hsome
    refine ⟨{ s with input := some i.input }, ?_, hverbosity, by simp [hrest], houtput, hlisting,
      hmaxIndex⟩
    simp [Request.apply, Settings.setInput, hnone, hi.input]
  | option o value =>
    cases o with
    | output =>
      obtain ⟨hpath, hrest⟩ := Settings.path_eq .output houtput hi.output
      refine ⟨{ s with output := i.output }, ?_, hverbosity, hinput, by simp [hrest], hlisting,
        hmaxIndex⟩
      rw [Request.apply, Settings.set, hpath]
      rfl
    | listing =>
      obtain ⟨hpath, hrest⟩ := Settings.path_eq .listing hlisting hi.listing
      refine ⟨{ s with listing := i.listing }, ?_, hverbosity, hinput, houtput, by simp [hrest],
        hmaxIndex⟩
      rw [Request.apply, Settings.set, hpath]
      rfl
    | maxIndex =>
      obtain ⟨hnone, hsome, hrest⟩ := eq_none_of_toList_append_cons hmaxIndex
      obtain ⟨n, hn, rfl⟩ := Option.map_eq_some_iff.1 hsome
      rw [Option.map_eq_none_iff] at hnone
      refine ⟨{ s with maxIndex := some n }, ?_, hverbosity, hinput, houtput, hlisting,
        by simp [hrest, hn]⟩
      have hread := Settings.number?_toString (hi.maxIndex n hn)
      simp only [Request.apply, Settings.set, hnone, hread, Option.isSome_none]
      rfl

theorem finish_eq (h : Describes s [] i) : s.finish = .ok (.run i) := by
  obtain ⟨hverbosity, hinput, houtput, hlisting, hmaxIndex⟩ := h
  rw [List.filterMap_nil, List.append_nil] at hinput houtput hlisting hmaxIndex
  have hin : s.input = some i.input := Option.toList_eq_singleton_iff.1 hinput
  have hmax : s.maxIndex = i.maxIndex :=
    Option.map_injective toString_injective (eq_of_toList_eq hmaxIndex)
  have hcount : s.verbosity = i.verbosity := hverbosity
  rw [Settings.finish, hin, eq_of_toList_eq houtput, eq_of_toList_eq hlisting, hmax, hcount]

/-- Requests that describe an invocation are carried out to the end, whatever their order. -/
theorem foldlM_apply (hi : i.IsValid) (h : Describes s rs i) :
    rs.foldlM Request.apply s >>= Settings.finish = .ok (.run i) := by
  induction rs generalizing s with
  | nil => exact h.finish_eq
  | cons r rs ih =>
    obtain ⟨s', happly, h'⟩ := h.exists_apply hi
    rw [List.foldlM_cons, happly]
    exact ih h'

end Arguments.Describes

/-- The arguments that ask for an invocation. -/
def Invocation.WrittenAs (i : Invocation) (args : List String) : Prop :=
  i.IsValid ∧ ∃ requests, Arguments.Spells requests args ∧ Arguments.Describes {} requests i

theorem Invocation.WrittenAs.parse_eq {i : Invocation} {args : List String}
    (h : i.WrittenAs args) : Arguments.parse args = .ok (.run i) := by
  obtain ⟨hi, requests, hspells, hdescribes⟩ := h
  rw [Arguments.parse, Arguments.parseFrom_spells hspells, hdescribes.foldlM_apply hi]

/-! ## Where the output goes -/

/-- A file name, and the same name with another extension. -/
inductive Renamed (extension : String) : String → String → Prop where
  /-- What follows the last dot is replaced. -/
  | replaced {stem old : String} (hempty : stem ≠ "") (hdot : stem ≠ ".")
      (hold : '.' ∉ old.toList) : Renamed extension (stem ++ "." ++ old) (stem ++ "." ++ extension)
  /-- A dot at the front does not begin an extension. -/
  | appended {name : String} (h : '.' ∉ name.toList.tail) :
      Renamed extension name (name ++ "." ++ extension)
  /-- What would be left of the name is that of the directory above. -/
  | above {old : String} (hold : '.' ∉ old.toList) : Renamed extension (".." ++ old) ".."

/-- The part of a path before the file name. -/
def IsFolder (folder : String) : Prop :=
  folder = "" ∨ ∃ path, folder = path ++ "/"

/-- A path, and the path in the same directory whose file name has another extension. -/
def Beside (extension path out : String) : Prop :=
  ∃ folder name new, IsFolder folder ∧ '/' ∉ name.toList ∧ path = folder ++ name ∧
    Renamed extension name new ∧ out = folder ++ new

/-- The output of an invocation: what is asked for, and else a file beside the input. -/
def Invocation.Destination (i : Invocation) (out : String) : Prop :=
  i.output = some out ∨ i.output = none ∧ Beside "tm" i.input out

section Split

variable {c : Char} {before after : List Char}

theorem exists_eq_append_cons_last {cs : List Char} (h : c ∈ cs) :
    ∃ before after, cs = before ++ c :: after ∧ c ∉ after := by
  obtain ⟨after, before, hsplit, hafter⟩ := List.eq_append_cons_of_mem (List.mem_reverse.2 h)
  refine ⟨before.reverse, after.reverse, ?_, by simpa using hafter⟩
  rw [← List.reverse_reverse cs, hsplit]
  simp

theorem bne_of_mem_reverse (h : c ∉ after) : ∀ d ∈ after.reverse, (d != c) = true := by
  intro d hd
  rw [bne_iff_ne]
  rintro rfl
  exact h (List.mem_reverse.1 hd)

theorem dropWhile_reverse_append (h : c ∉ after) :
    (before ++ c :: after).reverse.dropWhile (fun d => d != c) = c :: before.reverse := by
  rw [List.reverse_append, List.reverse_cons, List.append_assoc,
    List.dropWhile_append_of_pos (bne_of_mem_reverse h)]
  simp

end Split

variable {extension : String}

/-- The last dot of a name decides. -/
theorem withExtension_append {stem old : String} (hold : '.' ∉ old.toList) :
    withExtension (stem ++ "." ++ old) extension =
      if stem = "" then "." ++ old ++ "." ++ extension
      else if stem = "." then ".."
      else stem ++ "." ++ extension := by
  have hdrop : (stem ++ "." ++ old).toList.reverse.dropWhile (fun c => c != '.') =
      '.' :: stem.toList.reverse := by
    rw [← dropWhile_reverse_append hold]
    simp
  have hstem : stem = String.ofList stem.toList.reverse.reverse := by simp
  unfold withExtension
  rw [hdrop]
  generalize stem.toList.reverse = cs at hstem
  subst hstem
  split
  · next heq =>
    obtain rfl : cs = ['.'] := List.tail_eq_of_cons_eq heq
    rfl
  · next c rest hne heq =>
    obtain rfl : cs = c :: rest := List.tail_eq_of_cons_eq heq
    have hone : String.ofList (c :: rest).reverse ≠ "." := by
      intro h
      have hlist : (c :: rest).reverse = ['.'] := String.ofList_injective h
      obtain ⟨hc, hrest⟩ := List.cons.inj (List.reverse_eq_iff.1 hlist)
      exact hne hc hrest
    rw [if_neg (by simp), if_neg hone]
  · next hcons =>
    cases cs with
    | nil => simp
    | cons c rest => exact absurd rfl (hcons c rest)

theorem withExtension_of_not_mem {name : String} (h : '.' ∉ name.toList) :
    withExtension name extension = name ++ "." ++ extension := by
  have hdrop : name.toList.reverse.dropWhile (fun c => c != '.') = [] :=
    List.dropWhile_eq_nil_iff.2 (bne_of_mem_reverse h)
  rw [withExtension, hdrop]

theorem Renamed.eq_withExtension {name new : String} (h : Renamed extension name new) :
    new = withExtension name extension := by
  cases h with
  | replaced hempty hdot hold => rw [withExtension_append hold, if_neg hempty, if_neg hdot]
  | appended h =>
    cases hlist : name.toList with
    | nil => rw [withExtension_of_not_mem (by simp [hlist])]
    | cons c cs =>
      rw [hlist, List.tail_cons] at h
      by_cases hc : c = '.'
      · have hname : name = "" ++ "." ++ String.ofList cs := by
          rw [← String.toList_inj, hlist, hc]
          simp
        have happend : withExtension ("" ++ "." ++ String.ofList cs) extension = _ :=
          withExtension_append (by rwa [String.toList_ofList])
        rw [hname, happend]
        simp
      · rw [withExtension_of_not_mem (by simp [hlist, h, Ne.symm hc])]
  | @above old hold =>
    have happend : withExtension ("." ++ "." ++ old) extension = _ := withExtension_append hold
    exact happend.symm

theorem renamed_withExtension (name extension : String) :
    Renamed extension name (withExtension name extension) := by
  by_cases hdot : '.' ∈ name.toList
  · obtain ⟨before, after, hsplit, hafter⟩ := exists_eq_append_cons_last hdot
    have hname : name = String.ofList before ++ "." ++ String.ofList after := by
      rw [← String.toList_inj, hsplit]
      simp
    have hold : '.' ∉ (String.ofList after).toList := by rwa [String.toList_ofList]
    rw [hname, withExtension_append hold]
    split
    · next hempty =>
      rw [hempty, String.empty_append]
      exact .appended (by simpa using hafter)
    · next hempty =>
      split
      · next hone =>
        rw [hone]
        exact .above hold
      · next hone => exact .replaced hempty hone hold
  · rw [withExtension_of_not_mem hdot]
    exact .appended fun h => hdot (List.mem_of_mem_tail h)

theorem pathWithExtension_append {folder name : String} (hfolder : IsFolder folder)
    (hname : '/' ∉ name.toList) :
    pathWithExtension (folder ++ name) extension = folder ++ withExtension name extension := by
  -- no slash comes after the folder, and the folder ends with one
  have htake : folder.toList.reverse.takeWhile (fun c => c != '/') = [] := by
    rcases hfolder with rfl | ⟨path, rfl⟩ <;> simp
  have hdrop : folder.toList.reverse.dropWhile (fun c => c != '/') = folder.toList.reverse := by
    rcases hfolder with rfl | ⟨path, rfl⟩ <;> simp
  have hall := bne_of_mem_reverse hname
  unfold pathWithExtension
  rw [String.toList_append, List.reverse_append, List.takeWhile_append_of_pos hall,
    List.dropWhile_append_of_pos hall, htake, hdrop]
  simp

theorem exists_folder (path : String) :
    ∃ folder name, IsFolder folder ∧ '/' ∉ name.toList ∧ path = folder ++ name := by
  by_cases hslash : '/' ∈ path.toList
  · obtain ⟨before, after, hsplit, hafter⟩ := exists_eq_append_cons_last hslash
    refine ⟨String.ofList before ++ "/", String.ofList after, .inr ⟨_, rfl⟩,
      by rwa [String.toList_ofList], ?_⟩
    rw [← String.toList_inj, hsplit]
    simp
  · exact ⟨"", path, .inl rfl, hslash, String.empty_append.symm⟩

theorem beside_iff {path out : String} :
    Beside extension path out ↔ out = pathWithExtension path extension := by
  constructor
  · rintro ⟨folder, name, new, hfolder, hname, rfl, hnew, rfl⟩
    rw [pathWithExtension_append hfolder hname, hnew.eq_withExtension]
  · rintro rfl
    obtain ⟨folder, name, hfolder, hname, rfl⟩ := exists_folder path
    rw [pathWithExtension_append hfolder hname]
    exact ⟨folder, name, _, hfolder, hname, rfl, renamed_withExtension name extension, rfl⟩

namespace Invocation

variable {i : Invocation}

theorem destination_iff {out : String} : i.Destination out ↔ out = i.outputPath := by
  unfold Destination outputPath
  rw [beside_iff]
  cases i.output with
  | none => simp
  | some path => simp [eq_comm]

/-- Every invocation has one output. -/
theorem existsUnique_destination (i : Invocation) : ∃! out, i.Destination out :=
  ⟨i.outputPath, destination_iff.2 rfl, fun _ h => destination_iff.1 h⟩

/-- The settings are those that are asked for, and by default indices may be as large as 65536. -/
theorem options_eq (i : Invocation) : i.options = { maxIndex := i.maxIndex.getD 65536 } := by
  unfold options
  cases i.maxIndex <;> rfl

end Invocation

end StackTape
