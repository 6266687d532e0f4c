import FalconAS.Machine.Checked
import FalconAS.Static.Filesystem

/-!
# The list and the map of the files

What `initFiles` lists, what `processFileProperties` puts into the map, and how each of them fails.
-/

namespace FalconAS.Static

open FalconAS.Http FalconAS.Seq FalconAS.Machine

/-! ## Paths -/

theorem behindLast_append_cons {c : UInt8} {u w : Bytes} (h : c ∉ w) :
    behindLast c (u ++ c :: w) = u.length + 1 := by
  rw [behindLast, rfind_append_cons h]

theorem behindLast_of_not_mem {c : UInt8} {s : Bytes} (h : c ∉ s) : behindLast c s = 0 := by
  rw [behindLast, rfind_of_not_mem h]

theorem behindLast_le (c : UInt8) (s : Bytes) : behindLast c s ≤ s.length := by
  by_cases h : c ∈ s
  · obtain ⟨u, w, rfl, hw⟩ := exists_eq_append_cons h
    rw [behindLast_append_cons hw, List.length_append, List.length_cons]
    omega
  · rw [behindLast_of_not_mem h]
    exact Nat.zero_le _

theorem drop_behindLast_append_cons {c : UInt8} {u w : Bytes} (h : c ∉ w) :
    (u ++ c :: w).drop (behindLast c (u ++ c :: w)) = w := by
  rw [behindLast_append_cons h, ← List.drop_drop, List.drop_left]
  rfl

/-- What stands behind the last slash. -/
def lastName (file : Bytes) : Bytes := file.drop (behindLast slash file)

/-- The file has a name and is below the directory. -/
def Below (root file : Bytes) : Prop := ∃ dirs name, file = root ++ dirs ++ slash :: name ∧ slash ∉ name

theorem below_of_isPrefix {root file : Bytes} (h : root ++ [slash] <+: file) : Below root file := by
  obtain ⟨rest, rfl⟩ := h
  obtain ⟨dirs, name, heq, hname⟩ := exists_eq_append_cons (List.mem_cons_self : slash ∈ slash :: rest)
  exact ⟨dirs, name, by rw [List.append_assoc, List.singleton_append, heq, List.append_assoc], hname⟩

/-- An extension without a slash is one of the last name. -/
theorem suffix_of_suffix_append_cons {u name fileExtension : Bytes} (h : dot :: fileExtension <:+ u ++ slash :: name)
    (hslash : slash ∉ fileExtension) : dot :: fileExtension <:+ name := by
  rcases List.suffix_or_suffix_of_suffix h (List.suffix_append u (slash :: name)) with h | h
  · rcases List.suffix_cons_iff.mp h with heq | h
    · cases heq
    · exact h
  · rcases List.mem_cons.mp (h.mem List.mem_cons_self) with heq | hmem
    · cases heq
    · exact absurd hmem hslash

/-- What the iterator takes for the extension, the properties have without the dot. -/
theorem OS.Documented.drop_behindLast {os : OS} (h : os.Documented) {root file fileExtension : Bytes}
    (hbelow : Below root file) (hextension : os.extension file = dot :: fileExtension) :
    (lastName file).drop (behindLast dot (lastName file)) = fileExtension := by
  obtain ⟨dirs, name, rfl, hname⟩ := hbelow
  obtain ⟨hsuffix, hdot, hslash⟩ := h.suffix_of_extension hextension
  obtain ⟨stem, rfl⟩ := suffix_of_suffix_append_cons hsuffix hslash
  rw [lastName, drop_behindLast_append_cons hname, drop_behindLast_append_cons hdot]

theorem substr_of_le {s : Bytes} {pos : Nat} (h : pos ≤ s.length) (count : Nat) :
    substr s pos count = .ok ((s.drop pos).take count) :=
  if_neg (Nat.not_lt.mpr h)

namespace Filesystem

/-! ## The properties of a file -/

/-- The properties of a file that was opened, as the file has them. -/
def described (os : OS) (file : Bytes) (fd : Int) (content : Bytes) : FileProperties where
  fileDescriptor := fd
  fileSize := UInt32.ofInt (os.stSize fd)
  fileName := lastName file
  fileExtension := (lastName file).drop (behindLast dot (lastName file))
  mimeType := mimeTypeOf ((lastName file).drop (behindLast dot (lastName file)))
  eTag := hex (os.hash content)

theorem fileProperties_eq (os : OS) (fs : Filesystem) (fd : Int) {file dirs name : Bytes}
    (hfile : file = fs.staticPath ++ dirs ++ slash :: name) (hslash : slash ∉ name) :
    fs.fileProperties os file fd = do
      let eTag ← getFileEtag os file
      return (dirs ++ slash :: name, { described os file fd [] with eTag := eTag }) := by
  have hlen : file.length = (fs.staticPath ++ dirs).length + 1 + name.length := by
    rw [hfile, List.length_append, List.length_cons]
    omega
  have hpos : behindLast slash file = (fs.staticPath ++ dirs).length + 1 := by
    rw [hfile, behindLast_append_cons hslash]
  have hlastName : lastName file = name := by rw [hfile, lastName, drop_behindLast_append_cons hslash]
  have hname : substr file (behindLast slash file) (file.length + 1 - behindLast slash file) = .ok name := by
    rw [substr_of_le (behindLast_le slash file), List.take_of_length_le (by rw [List.length_drop]; omega)]
    exact congrArg Except.ok hlastName
  have hpath : substr file 0 (if behindLast slash file = 0 then file.length else behindLast slash file - 1) =
      .ok (fs.staticPath ++ dirs) := by
    rw [substr_of_le (Nat.zero_le _), hpos, if_neg (Nat.succ_ne_zero _), Nat.add_sub_cancel, List.drop_zero, hfile,
      List.take_left]
  have hdot := behindLast_le dot name
  have hextension : substr name (behindLast dot name) (file.length + 1 - behindLast dot name) =
      .ok (name.drop (behindLast dot name)) := by
    rw [substr_of_le hdot, List.take_of_length_le (by rw [List.length_drop]; omega)]
  have hrel : substr (fs.staticPath ++ dirs) fs.staticPath.length
      ((fs.staticPath ++ dirs).length - fs.staticPath.length) = .ok dirs := by
    rw [substr_of_le (by rw [List.length_append]; omega), List.drop_left,
      List.take_of_length_le (by rw [List.length_append]; omega)]
  have hstatic : fs.basePath ++ fs.path ++ ofString "/static" = fs.staticPath := rfl
  simp only [fileProperties, hstatic, hname, hpath, hextension, hrel, bind, Except.bind, described, hlastName]

end Filesystem

/-! ## The list of files -/

/-- The paths below the directory that have one of the extensions, extension by extension. -/
def listing (os : OS) (root : Bytes) (mimetypes : List Bytes) : List Bytes :=
  mimetypes.flatMap fun mimetype =>
    ((os.iterate (root ++ [slash])).getD []).filter fun file => dot :: mimetype = os.extension file

theorem mem_listing_iff {os : OS} {root : Bytes} {mimetypes : List Bytes} {file : Bytes} :
    file ∈ listing os root mimetypes ↔
      ∃ paths mimetype, os.iterate (root ++ [slash]) = some paths ∧ file ∈ paths ∧
        mimetype ∈ mimetypes ∧ os.extension file = dot :: mimetype := by
  simp only [listing, List.mem_flatMap, List.mem_filter, decide_eq_true_eq]
  constructor
  · rintro ⟨mimetype, hmimetype, hfile, hextension⟩
    cases hpaths : os.iterate (root ++ [slash]) with
    | none =>
        rw [hpaths] at hfile
        cases hfile
    | some paths =>
        rw [hpaths] at hfile
        exact ⟨paths, mimetype, rfl, hfile, hmimetype, hextension.symm⟩
  · rintro ⟨paths, mimetype, hpaths, hfile, hmimetype, hextension⟩
    refine ⟨mimetype, hmimetype, ?_, hextension.symm⟩
    rw [hpaths]
    exact hfile

theorem OS.Documented.below_of_mem_listing {os : OS} (h : os.Documented) {root : Bytes} {mimetypes : List Bytes} :
    ∀ file ∈ listing os root mimetypes, Below root file := by
  intro file hfile
  obtain ⟨paths, mimetype, hpaths, hin, -⟩ := mem_listing_iff.mp hfile
  exact below_of_isPrefix (h.below_of_mem_iterate hpaths hin)

theorem getDirListingByFiletype_eq_ok {os : OS} {path fileType : Bytes} {files : List Bytes}
    (h : getDirListingByFiletype os path fileType = .ok files) :
    files = ((os.iterate path).getD []).filter fun file => fileType = os.extension file := by
  unfold getDirListingByFiletype at h
  cases hpaths : os.iterate path with
  | none =>
      rw [hpaths] at h
      cases h
  | some paths =>
      rw [hpaths] at h
      cases h
      rfl

theorem getDirListingByFiletype_eq_error {os : OS} {path fileType : Bytes} {e : Fault}
    (h : getDirListingByFiletype os path fileType = .error e) : e = .filesystemError ∧ os.iterate path = none := by
  unfold getDirListingByFiletype at h
  cases hpaths : os.iterate path with
  | none =>
      rw [hpaths] at h
      cases h
      exact ⟨rfl, rfl⟩
  | some paths =>
      rw [hpaths] at h
      cases h

namespace Filesystem

theorem initFiles_eq_ok {os : OS} {fs fs' : Filesystem} (hnew : fs.files = []) (h : fs.initFiles os = .ok fs') :
    fs' = { fs with
      completePath := fs.staticPath ++ [slash], files := listing os fs.staticPath fs.mimetypes } := by
  obtain ⟨files, hfiles, hfs'⟩ := bind_eq_ok.mp h
  cases hfs'
  have hlisting : files = listing os fs.staticPath fs.mimetypes := by
    refine foldlM_history (P := fun _ => True) (I := fun ms files => files = listing os fs.staticPath ms) ?_ []
      (fun _ _ => trivial) hnew hfiles
    intro ms files mimetype files' hI _ hturn
    obtain ⟨tmpFiles, htmp, hfiles'⟩ := bind_eq_ok.mp hturn
    cases hfiles'
    rw [listing, List.flatMap_append, List.flatMap_singleton, ← listing, ← hI, getDirListingByFiletype_eq_ok htmp]
    rfl
  rw [hlisting]
  rfl

theorem initFiles_eq_error {os : OS} {fs : Filesystem} {e : Fault} (h : fs.initFiles os = .error e) :
    e = .filesystemError ∧ os.iterate (fs.staticPath ++ [slash]) = none := by
  rcases bind_eq_error.mp h with h | ⟨files, -, h⟩
  · obtain ⟨-, mimetype, files, -, -, hturn⟩ := foldlM_error_history (P := fun _ => True) (I := fun _ _ => True)
      (fun _ _ _ _ _ _ _ => trivial) [] (fun _ _ => trivial) trivial h
    rcases bind_eq_error.mp hturn with hturn | ⟨tmpFiles, -, hturn⟩
    · exact getDirListingByFiletype_eq_error hturn
    · cases hturn
  · cases h

/-! ## The map -/

theorem lookup_emplace (entries : List (Bytes × FileProperties)) (entry : Bytes × FileProperties) (key : Bytes) :
    (emplace entries entry).lookup key =
      (entries.lookup key).or (if key = entry.1 then some entry.2 else none) := by
  have hnew : [entry].lookup key = if key = entry.1 then some entry.2 else none := by
    rw [List.lookup_cons]
    by_cases hkey : key = entry.1
    · rw [if_pos hkey, beq_iff_eq.mpr hkey]
    · rw [if_neg hkey, beq_eq_false_iff_ne.mpr hkey]
      rfl
  unfold emplace
  split
  case isTrue hin =>
      -- the key is there already
      by_cases hkey : key = entry.1
      · rw [← hkey] at hin
        rw [Option.or_of_isSome hin]
      · rw [if_neg hkey, Option.or_none]
  case isFalse => rw [List.lookup_append, hnew]

/-- The attempt to open the file with this key succeeds. -/
def opens (os : OS) (root key : Bytes) (attempt : Bytes × Nat) : Bool :=
  attempt.1 = root ++ key ∧ 0 < os.openFile attempt.2 attempt.1

/-- After these attempts to open files, the map has the properties of those that were opened, each by its first such
attempt. -/
structure Processed (os : OS) (fs₀ : Filesystem) (attempts : List (Bytes × Nat)) (fs : Filesystem) : Prop where
  same : fs = { fs₀ with filesExtended := fs.filesExtended }
  found : ∀ key, fs.filesExtended.lookup key = (attempts.find? (opens os fs₀.staticPath key)).map fun attempt =>
    described os attempt.1 (os.openFile attempt.2 attempt.1) ((os.content attempt.1).getD [])
  read : ∀ attempt ∈ attempts, 0 < os.openFile attempt.2 attempt.1 → ∃ content, os.content attempt.1 = some content

theorem getFileEtag_eq_ok {os : OS} {file eTag : Bytes} (h : getFileEtag os file = .ok eTag) :
    ∃ content, os.content file = some content ∧ eTag = hex (os.hash content) := by
  unfold getFileEtag at h
  cases hc : os.content file with
  | none =>
      rw [hc] at h
      cases h
  | some content =>
      rw [hc] at h
      cases h
      exact ⟨content, rfl, rfl⟩

theorem processed_processFile {os : OS} {fs₀ fs fs' : Filesystem} {attempts : List (Bytes × Nat)}
    {attempt : Bytes × Nat} (h : Processed os fs₀ attempts fs) (hbelow : Below fs₀.staticPath attempt.1)
    (hturn : fs.processFile os attempt.2 attempt.1 = .ok fs') : Processed os fs₀ (attempts ++ [attempt]) fs' := by
  obtain ⟨dirs, name, hfile, hslash⟩ := hbelow
  have hstatic : fs.staticPath = fs₀.staticPath := by rw [h.same]; rfl
  have hopens : ∀ key, opens os fs₀.staticPath key attempt = true ↔
      key = dirs ++ slash :: name ∧ 0 < os.openFile attempt.2 attempt.1 := by
    intro key
    rw [opens, decide_eq_true_iff, hfile, List.append_assoc, List.append_cancel_left_eq, eq_comm]
  unfold processFile at hturn
  by_cases hfd : os.openFile attempt.2 attempt.1 > 0
  · rw [if_pos hfd] at hturn
    obtain ⟨entry, hentry, hfs'⟩ := bind_eq_ok.mp hturn
    rw [fileProperties_eq os fs _ (by rw [hstatic]; exact hfile) hslash] at hentry
    obtain ⟨eTag, hetag, hentry⟩ := bind_eq_ok.mp hentry
    obtain ⟨content, hcontent, rfl⟩ := getFileEtag_eq_ok hetag
    cases hentry
    cases hfs'
    refine ⟨?_, fun key => ?_, ?_⟩
    · rw [h.same]
    · dsimp only
      rw [lookup_emplace, h.found, List.find?_append, List.find?_singleton]
      by_cases hkey : key = dirs ++ slash :: name
      · rw [if_pos hkey, if_pos ((hopens key).mpr ⟨hkey, hfd⟩), Option.map_or, Option.map_some, hcontent]
        rfl
      · rw [if_neg hkey, if_neg fun hop => hkey ((hopens key).mp hop).1, Option.or_none, Option.or_none]
    · intro a ha hopen
      rcases List.mem_append.mp ha with ha | ha
      · exact h.read a ha hopen
      · rw [List.mem_singleton.mp ha]
        exact ⟨content, hcontent⟩
  · rw [if_neg hfd] at hturn
    cases hturn
    refine ⟨h.same, fun key => ?_, ?_⟩
    · have hnot : ¬ opens os fs₀.staticPath key attempt = true := fun hop => hfd ((hopens key).mp hop).2
      rw [h.found, List.find?_append, List.find?_singleton, if_neg hnot, Option.or_none]
    · intro a ha hopen
      rcases List.mem_append.mp ha with ha | ha
      · exact h.read a ha hopen
      · rw [List.mem_singleton.mp ha] at hopen
        exact absurd hopen hfd

theorem processFile_eq_error {os : OS} {fs : Filesystem} {file : Bytes} {opened : Nat} {e : Fault}
    (hbelow : Below fs.staticPath file) (h : fs.processFile os opened file = .error e) :
    e = .exit ∧ os.content file = none := by
  obtain ⟨dirs, name, hfile, hslash⟩ := hbelow
  unfold processFile at h
  by_cases hfd : os.openFile opened file > 0
  · rw [if_pos hfd, fileProperties_eq os fs _ hfile hslash] at h
    rcases bind_eq_error.mp h with h | ⟨entry, -, h⟩
    · rcases bind_eq_error.mp h with h | ⟨eTag, -, h⟩
      · unfold getFileEtag at h
        cases hc : os.content file with
        | none =>
            rw [hc] at h
            cases h
            exact ⟨rfl, rfl⟩
        | some content =>
            rw [hc] at h
            cases h
      · cases h
    · cases h
  · rw [if_neg hfd] at h
    cases h

theorem staticPath_processFile {os : OS} {fs fs' : Filesystem} {file : Bytes} {opened : Nat}
    (h : fs.processFile os opened file = .ok fs') : fs'.staticPath = fs.staticPath := by
  unfold processFile at h
  by_cases hfd : os.openFile opened file > 0
  · rw [if_pos hfd] at h
    obtain ⟨entry, -, h⟩ := bind_eq_ok.mp h
    cases h
    rfl
  · rw [if_neg hfd] at h
    cases h
    rfl

theorem below_of_mem_zipIdx {root : Bytes} {files : List Bytes} (h : ∀ file ∈ files, Below root file) (opened : Nat) :
    ∀ attempt ∈ files.zipIdx opened, Below root attempt.1 :=
  fun _ hattempt => h _ (List.fst_mem_of_mem_zipIdx hattempt)

theorem processFileProperties_eq_ok {os : OS} {fs fs' : Filesystem} {opened : Nat} (hnew : fs.filesExtended = [])
    (hbelow : ∀ file ∈ fs.files, Below fs.staticPath file) (h : fs.processFileProperties os opened = .ok fs') :
    Processed os fs (fs.files.zipIdx opened) fs' := by
  have hstart : Processed os fs [] fs := by
    refine ⟨rfl, fun key => ?_, fun a ha => absurd ha List.not_mem_nil⟩
    rw [hnew]
    rfl
  exact foldlM_history (fun _ _ _ _ h hi hturn => processed_processFile h hi hturn) []
    (below_of_mem_zipIdx hbelow opened) hstart h

theorem processFileProperties_eq_error {os : OS} {fs : Filesystem} {opened : Nat} {e : Fault}
    (hbelow : ∀ file ∈ fs.files, Below fs.staticPath file) (h : fs.processFileProperties os opened = .error e) :
    e = .exit ∧ ∃ file ∈ fs.files, os.content file = none := by
  obtain ⟨-, attempt, t, hattempt, ht, herror⟩ := foldlM_error_history (I := fun _ t => t.staticPath = fs.staticPath)
    (fun _ _ _ _ ht _ hturn => (staticPath_processFile hturn).trans ht) [] (below_of_mem_zipIdx hbelow opened) rfl h
  have hin := List.fst_mem_of_mem_zipIdx hattempt
  obtain ⟨he, hcontent⟩ := processFile_eq_error (by rw [ht]; exact hbelow _ hin) herror
  exact ⟨he, _, hin, hcontent⟩

end Filesystem

end FalconAS.Static
