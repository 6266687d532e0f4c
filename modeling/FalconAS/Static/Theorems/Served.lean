import FalconAS.Static.Lemmas.Files

/-!
# The files that are served

A key is found exactly if the static directory with the key behind it is a path that the iterator comes to, with an
extension that is configured, and could be opened. Its properties are those of that file.
-/

namespace FalconAS.Static

open FalconAS.Http FalconAS.Seq FalconAS.Machine

/-! ## A namespace -/

section

open Filesystem

variable {os : OS} {basePath path : Bytes} {mimetypes : List Bytes} {opened opened' : Nat} {fs : Filesystem}

def staticDir (basePath path : Bytes) : Bytes := basePath ++ path ++ ofString "/static"

/-- What `mapNamespace` leaves in the map. -/
structure Mapped (os : OS) (root : Bytes) (mimetypes : List Bytes) (opened : Nat) (fs : Filesystem) : Prop where
  found : ∀ key, fs.filesExtended.lookup key =
    (((listing os root mimetypes).zipIdx opened).find? (opens os root key)).map fun attempt =>
      described os attempt.1 (os.openFile attempt.2 attempt.1) ((os.content attempt.1).getD [])
  read : ∀ attempt ∈ (listing os root mimetypes).zipIdx opened, 0 < os.openFile attempt.2 attempt.1 →
    ∃ content, os.content attempt.1 = some content

theorem mapNamespace_eq_ok (hos : os.Documented)
    (h : mapNamespace os basePath mimetypes opened path = .ok (fs, opened')) :
    Mapped os (staticDir basePath path) mimetypes opened fs := by
  obtain ⟨fs₁, hinit, h⟩ := bind_eq_ok.mp h
  obtain ⟨fs₂, hprocess, h⟩ := bind_eq_ok.mp h
  cases h
  obtain rfl := initFiles_eq_ok rfl hinit
  have hprocessed := processFileProperties_eq_ok rfl hos.below_of_mem_listing hprocess
  exact ⟨hprocessed.found, hprocessed.read⟩

/-- The key is found by the first attempt at its file that succeeds. -/
theorem Mapped.exists_attempt {root : Bytes} (h : Mapped os root mimetypes opened fs) {key : Bytes}
    (hkey : fs.checkFileExists key = true) :
    ∃ k, (listing os root mimetypes)[k]? = some (root ++ key) ∧ 0 < os.openFile (opened + k) (root ++ key) ∧
      (∀ j < k, (listing os root mimetypes)[j]? = some (root ++ key) → os.openFile (opened + j) (root ++ key) ≤ 0) ∧
      fs.getFilePropertiesByFile key = described os (root ++ key) (os.openFile (opened + k) (root ++ key))
        ((os.content (root ++ key)).getD []) := by
  rw [checkFileExists, h.found, Option.isSome_map, Option.isSome_iff_exists] at hkey
  obtain ⟨⟨file, n⟩, hattempt⟩ := hkey
  obtain ⟨hopens, k, hk, hget, hbefore⟩ := List.find?_eq_some_iff_getElem.mp hattempt
  obtain ⟨hfile, hopen⟩ := decide_eq_true_iff.mp hopens
  dsimp only at hfile hopen
  subst hfile
  rw [List.getElem_zipIdx] at hget
  obtain ⟨hfile, rfl⟩ := Prod.mk.inj hget
  rw [List.length_zipIdx] at hk
  refine ⟨k, by rw [List.getElem?_eq_getElem hk, hfile], hopen, fun j hj hj' => ?_, ?_⟩
  · have hnot := hbefore j hj
    rw [List.getElem?_eq_getElem (hj.trans hk)] at hj'
    rw [List.getElem_zipIdx, Option.some.inj hj', opens] at hnot
    simpa using hnot
  · rw [getFilePropertiesByFile, h.found, hattempt]
    rfl

theorem Mapped.checkFileExists_iff {root : Bytes} (h : Mapped os root mimetypes opened fs) (key : Bytes) :
    fs.checkFileExists key = true ↔
      ∃ k, (listing os root mimetypes)[k]? = some (root ++ key) ∧ 0 < os.openFile (opened + k) (root ++ key) := by
  constructor
  · intro hkey
    obtain ⟨k, hget, hopen, -⟩ := h.exists_attempt hkey
    exact ⟨k, hget, hopen⟩
  · rintro ⟨k, hget, hopen⟩
    rw [checkFileExists, h.found, Option.isSome_map, List.find?_isSome]
    exact ⟨(root ++ key, opened + k), List.mk_add_mem_zipIdx_iff_getElem?.mpr hget, decide_eq_true_iff.mpr ⟨rfl, hopen⟩⟩

theorem Mapped.mem_listing_of_found {root : Bytes} (h : Mapped os root mimetypes opened fs) {key : Bytes}
    (hkey : fs.checkFileExists key = true) : root ++ key ∈ listing os root mimetypes := by
  obtain ⟨k, hget, -⟩ := (h.checkFileExists_iff key).mp hkey
  exact List.mem_of_getElem? hget

/-- The static directory of `/srv/a` has a directory with one file. -/
def oneFile : OS where
  iterate path :=
    if path = ofString "/srv/a/static/" then some [ofString "/srv/a/static/js", ofString "/srv/a/static/js/a.js"]
    else none
  extension file := if file = ofString "/srv/a/static/js/a.js" then ofString ".js" else []
  openFile k _ := k + 3
  stSize _ := 5
  content file := if file = ofString "/srv/a/static/js/a.js" then some (ofString "a = 1") else none
  hash content := UInt64.ofNat content.length

theorem documented_oneFile : oneFile.Documented := by
  constructor
  · intro path file paths hpaths hfile
    by_cases hpath : path ++ [slash] = ofString "/srv/a/static/"
    · have hlist : oneFile.iterate (path ++ [slash]) =
          some [ofString "/srv/a/static/js", ofString "/srv/a/static/js/a.js"] := if_pos hpath
      rw [hlist] at hpaths
      cases hpaths
      rw [hpath]
      rcases List.mem_cons.mp hfile with rfl | hfile
      · decide +kernel
      · rw [List.mem_singleton.mp hfile]
        decide +kernel
    · have hnone : oneFile.iterate (path ++ [slash]) = none := if_neg hpath
      rw [hnone] at hpaths
      cases hpaths
  · intro file fileExtension h
    by_cases hfile : file = ofString "/srv/a/static/js/a.js"
    · have hjs : oneFile.extension file = dot :: ofString "js" := if_pos hfile
      rw [hjs] at h
      rw [hfile, ← (List.cons.inj h).2]
      decide +kernel
    · have hnone : oneFile.extension file = [] := if_neg hfile
      rw [hnone] at h
      cases h

/-- A file is found exactly if the static directory of the namespace with the key behind it is a path that was to be
opened, and an attempt to open it succeeded. To be opened are all paths that the iterator comes to and that have a
configured extension, and no others. -/
theorem found_iff (hos : os.Documented) (h : mapNamespace os basePath mimetypes opened path = .ok (fs, opened')) :
    (∀ key, fs.checkFileExists key = true ↔
      ∃ k, (listing os (staticDir basePath path) mimetypes)[k]? = some (staticDir basePath path ++ key) ∧
        0 < os.openFile (opened + k) (staticDir basePath path ++ key)) ∧
    ∀ file, file ∈ listing os (staticDir basePath path) mimetypes ↔
      ∃ paths mimetype, os.iterate (staticDir basePath path ++ [slash]) = some paths ∧ file ∈ paths ∧
        mimetype ∈ mimetypes ∧ os.extension file = dot :: mimetype :=
  ⟨(mapNamespace_eq_ok hos h).checkFileExists_iff, fun _ => mem_listing_iff⟩

theorem mapNamespace_oneFile :
    ∃ fs, mapNamespace oneFile (ofString "/srv") [ofString "js"] 0 (ofString "/a") = .ok (fs, 1) ∧
      fs.checkFileExists (ofString "/js/a.js") = true := by
  have hrun : (mapNamespace oneFile (ofString "/srv") [ofString "js"] 0 (ofString "/a")).toOption.map
      (fun r => (r.2, r.1.checkFileExists (ofString "/js/a.js"))) = some (1, true) := by decide +kernel
  cases h : mapNamespace oneFile (ofString "/srv") [ofString "js"] 0 (ofString "/a") with
  | error e =>
      rw [h] at hrun
      cases hrun
  | ok r =>
      rw [h] at hrun
      obtain ⟨fs, n⟩ := r
      obtain ⟨rfl, hkey⟩ := Prod.mk.inj (Option.some.inj hrun)
      exact ⟨fs, rfl, hkey⟩

/-- The directory `js` has no extension. -/
theorem found_iff_oneFile :
    ∃ fs, mapNamespace oneFile (ofString "/srv") [ofString "js"] 0 (ofString "/a") = .ok (fs, 1) ∧
      fs.checkFileExists (ofString "/js/a.js") = true ∧ fs.checkFileExists (ofString "/js") = false := by
  obtain ⟨fs, hfs, -⟩ := mapNamespace_oneFile
  have hlisting : listing oneFile (staticDir (ofString "/srv") (ofString "/a")) [ofString "js"] =
      [ofString "/srv/a/static/js/a.js"] := by decide +kernel
  obtain ⟨hfound, -⟩ := found_iff documented_oneFile hfs
  refine ⟨fs, hfs, (hfound _).mpr ⟨0, by decide +kernel, by decide⟩, ?_⟩
  rw [Bool.eq_false_iff]
  intro hkey
  obtain ⟨k, hget, -⟩ := (hfound _).mp hkey
  rw [hlisting] at hget
  have hne : ofString "/srv/a/static/js/a.js" ≠ staticDir (ofString "/srv") (ofString "/a") ++ ofString "/js" := by
    decide +kernel
  exact hne (List.mem_singleton.mp (List.mem_of_getElem? hget)).symm

/-- The properties under a key are those of the file at that path: from the first attempt to open it that succeeded,
with the name behind the last slash, the configured extension and its type, and the hash of the file's own content. -/
theorem properties_of_found (hos : os.Documented)
    (h : mapNamespace os basePath mimetypes opened path = .ok (fs, opened')) {key : Bytes}
    (hkey : fs.checkFileExists key = true) :
    ∃ dirs name mimetype content k, key = dirs ++ slash :: name ∧ slash ∉ name ∧ mimetype ∈ mimetypes ∧
      os.extension (staticDir basePath path ++ key) = dot :: mimetype ∧
      os.content (staticDir basePath path ++ key) = some content ∧
      (listing os (staticDir basePath path) mimetypes)[k]? = some (staticDir basePath path ++ key) ∧
      0 < os.openFile (opened + k) (staticDir basePath path ++ key) ∧
      (∀ j < k, (listing os (staticDir basePath path) mimetypes)[j]? = some (staticDir basePath path ++ key) →
        os.openFile (opened + j) (staticDir basePath path ++ key) ≤ 0) ∧
      fs.getFilePropertiesByFile key =
        { fileDescriptor := os.openFile (opened + k) (staticDir basePath path ++ key)
          fileSize := UInt32.ofInt (os.stSize (os.openFile (opened + k) (staticDir basePath path ++ key)))
          fileName := name
          fileExtension := mimetype
          mimeType := mimeTypeOf mimetype
          eTag := hex (os.hash content) } := by
  have hmapped := mapNamespace_eq_ok hos h
  have hlisted := hmapped.mem_listing_of_found hkey
  have hbelow := hos.below_of_mem_listing _ hlisted
  obtain ⟨paths, mimetype, -, -, hmimetype, hextension⟩ := mem_listing_iff.mp hlisted
  obtain ⟨k, hget, hopen, hfirst, hproperties⟩ := hmapped.exists_attempt hkey
  obtain ⟨content, hcontent⟩ := hmapped.read _ (List.mk_add_mem_zipIdx_iff_getElem?.mpr hget) hopen
  have hmime := hos.drop_behindLast hbelow hextension
  obtain ⟨dirs, name, hfile, hname⟩ := hbelow
  have hlast : lastName (staticDir basePath path ++ key) = name := by
    rw [hfile, lastName, drop_behindLast_append_cons hname]
  rw [List.append_assoc, List.append_cancel_left_eq] at hfile
  refine ⟨dirs, name, mimetype, content, k, hfile, hname, hmimetype, hextension, hcontent, hget, hopen, hfirst, ?_⟩
  rw [hproperties, described, hmime, hlast, hcontent, Option.getD_some]

theorem properties_of_found_oneFile :
    ∃ fs, mapNamespace oneFile (ofString "/srv") [ofString "js"] 0 (ofString "/a") = .ok (fs, 1) ∧
      (fs.getFilePropertiesByFile (ofString "/js/a.js")).mimeType = ofString "text/javascript" := by
  obtain ⟨fs, hfs, hkey⟩ := mapNamespace_oneFile
  obtain ⟨_, _, mimetype, _, _, _, _, hmimetype, _, _, _, _, _, hprops⟩ :=
    properties_of_found documented_oneFile hfs hkey
  have hjs : mimeTypeOf (ofString "js") = ofString "text/javascript" := by decide +kernel
  refine ⟨fs, hfs, ?_⟩
  rw [hprops, List.mem_singleton.mp hmimetype]
  exact hjs

/-! ## All namespaces -/

theorem mapNamespace_eq_error (hos : os.Documented) {e : Fault}
    (h : mapNamespace os basePath mimetypes opened path = .error e) :
    e = .filesystemError ∧ os.iterate (staticDir basePath path ++ [slash]) = none ∨
      e = .exit ∧ ∃ file ∈ listing os (staticDir basePath path) mimetypes, os.content file = none := by
  rcases bind_eq_error.mp h with h | ⟨fs₁, hinit, h⟩
  · exact .inl (initFiles_eq_error h)
  · obtain rfl := initFiles_eq_ok rfl hinit
    rcases bind_eq_error.mp h with h | ⟨fs₂, -, h⟩
    · exact .inr (processFileProperties_eq_error hos.below_of_mem_listing h)
    · cases h

/-- Every host has its files, and they are paths that the iterator came to below its own static directory. -/
theorem hosts_serve_own_files (hos : os.Documented) {namespaces : List (Bytes × Bytes)}
    {result : List (Bytes × Filesystem)} (h : mapStaticFSData os basePath mimetypes opened namespaces = .ok result) :
    result.map Prod.fst = namespaces.map Prod.fst ∧
      ∀ e ∈ result, ∃ path, (e.1, path) ∈ namespaces ∧ ∀ key, e.2.checkFileExists key = true →
        ∃ paths, os.iterate (staticDir basePath path ++ [slash]) = some paths ∧ staticDir basePath path ++ key ∈ paths ∧
          staticDir basePath path ++ [slash] <+: staticDir basePath path ++ key := by
  induction namespaces generalizing opened result with
  | nil =>
      cases h
      exact ⟨rfl, fun e he => absurd he List.not_mem_nil⟩
  | cons n namespaces ih =>
      obtain ⟨⟨fs, opened'⟩, hfirst, h⟩ := bind_eq_ok.mp h
      obtain ⟨rest, hrest, h⟩ := bind_eq_ok.mp h
      cases h
      obtain ⟨hhosts, hall⟩ := ih hrest
      refine ⟨congrArg (n.1 :: ·) hhosts, fun e he => ?_⟩
      rcases List.mem_cons.mp he with rfl | he
      · refine ⟨n.2, List.mem_cons_self, fun key hkey => ?_⟩
        obtain ⟨paths, -, hpaths, hin, -⟩ :=
          mem_listing_iff.mp ((mapNamespace_eq_ok hos hfirst).mem_listing_of_found hkey)
        exact ⟨paths, hpaths, hin, hos.below_of_mem_iterate hpaths hin⟩
      · obtain ⟨path, hpath, hserves⟩ := hall e he
        exact ⟨path, List.mem_cons_of_mem _ hpath, hserves⟩

theorem hosts_serve_own_files_oneFile :
    ∃ fs paths, mapStaticFSData oneFile (ofString "/srv") [ofString "js"] 0 [(ofString "localhost", ofString "/a")] =
        .ok [(ofString "localhost", fs)] ∧
      fs.checkFileExists (ofString "/js/a.js") = true ∧
      oneFile.iterate (staticDir (ofString "/srv") (ofString "/a") ++ [slash]) = some paths ∧
      staticDir (ofString "/srv") (ofString "/a") ++ ofString "/js/a.js" ∈ paths := by
  obtain ⟨fs, hfs, hkey⟩ := mapNamespace_oneFile
  have hmap : mapStaticFSData oneFile (ofString "/srv") [ofString "js"] 0 [(ofString "localhost", ofString "/a")] =
      .ok [(ofString "localhost", fs)] := by
    rw [mapStaticFSData, hfs]
    rfl
  obtain ⟨path, hpath, hserves⟩ := (hosts_serve_own_files documented_oneFile hmap).2 _ List.mem_cons_self
  obtain ⟨paths, hpaths, hin, -⟩ := hserves _ hkey
  obtain ⟨-, rfl⟩ := Prod.mk.inj (List.mem_singleton.mp hpath)
  exact ⟨fs, paths, hmap, hkey, hpaths, hin⟩

end

end FalconAS.Static
