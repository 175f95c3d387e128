import Mathlib
import Dframework.Library.Paths
import Dframework.Io.LocalFs
import Dframework.Httpd.OriginFs

/-!
# The path behind a request

A request names the file it is answered with twice: `se_checkLocalFile` asks for the attributes of what
stands in its target, query and all, and `sendLocalFile_ready` opens what stands there in front of the
query. Either way the root is taken by the name of an alias, and what is left of the path is put behind
the path of the root. No segment is looked at on the way.

Results:
1. `getAliasUri_cut_iff`: when both take the same root.
2. `check_open_iff`: when the attributes are those of the file that is opened.
3. `open_under_iff`: when the file that is opened lies below its root.
-/

namespace Dframework

open CLib Paths UriTextLemmas UriFrontLemmas

/-! ## The file systems -/

/-- The file systems behind a `UriFs`. -/
inductive BaseFs where
  | localFs
  | httpFs
  | ssh2Fs
  deriving DecidableEq, Repr

/-- What the file systems of other machines answer. -/
structure RemoteFs (φ : Type) where
  ready : BaseFs → Uri → Retval
  «open» : BaseFs → Uri → Bytes → Except Ret φ

/-- What `open` leaves behind: a file of this machine with its `m_sPath`, or one of another machine. -/
inductive OpenedFs (φ : Type) where
  | localFile (sPath : Bytes)
  | remote (fs : φ)

namespace UriFs

/-- `UriFs::onFindBaseFs`, as far as the scheme. -/
def onFindBaseFs (uri : Uri) : Except Ret BaseFs :=
  let scheme := uri.scheme
  if equals scheme (bytes "file") then .ok .localFs
  else if equals scheme (bytes "http") then .ok .httpFs
  else if equals scheme (bytes "https") then .ok .httpFs
  else if equals scheme (bytes "webdav") then .ok .httpFs
  else if equals scheme (bytes "webdavs") then .ok .httpFs
  else if equals scheme (bytes "sftp") then .ok .ssh2Fs
  else .error
    ⟨.error, "scheme=" ++ HttpRequest.chars (printed scheme) ++ ", Not supported scheme."⟩

/-- `UriFs::ready`. `LocalFs::ready` answers `NULL`. -/
def ready {φ : Type} (remote : RemoteFs φ) (uri : Uri) : Retval :=
  match onFindBaseFs uri with
  | .error e => some e
  | .ok .localFs => none
  | .ok fs => remote.ready fs uri

/-- `UriFs::open`. `disk` is what `File::open` answers. -/
def «open» {φ : Type} (disk : Bytes → Retval) (remote : RemoteFs φ) (uri : Uri) (path : Bytes) :
    Except Ret (OpenedFs φ) :=
  match onFindBaseFs uri with
  | .error e => .error e
  | .ok .localFs =>
    match disk (LocalFs.rpath uri path) with
    | some e => .error e
    | none => .ok (.localFile (LocalFs.rpath uri path))
  | .ok fs => (remote.open fs uri path).map .remote

/-- The origins of a root, as `OriginFs::open` asks them. -/
def origins {φ : Type} (disk : Bytes → Retval) (remote : RemoteFs φ) : Origins (OpenedFs φ) where
  ready _ uri := ready remote uri
  call _ uri path := UriFs.open disk remote uri path

end UriFs

/-! ## The root -/

namespace HttpdHost

variable {h : HttpdHost} {d p : RequestPath}

/-- The first alias that covers the path. -/
theorem getAliasUri_eq (h : HttpdHost) (p : RequestPath) :
    h.getAliasUri p.path =
      (h.aAliasDocumentRoot.findIdx? (·.answers p.path)).elim .base .named := by
  rw [getAliasUri, cstr_of_not_mem p.no_nul]
  split_ifs with hone
  · have hnone : h.aAliasDocumentRoot.findIdx? (·.answers p.path) = none := by
      rw [List.findIdx?_eq_none_iff]
      intro a ha
      have hpos := List.length_pos_of_ne_nil (h.alias_name a ha).1
      rw [AliasUri.answers, if_neg (h.alias_name a ha).1, if_pos (by omega)]
    rw [hnone]
    rfl
  · cases h.aAliasDocumentRoot.findIdx? (·.answers p.path) <;> rfl

end HttpdHost

/-- A path below the name, and not the name itself. -/
def AliasUri.CoversBelow (a : AliasUri) (path : Bytes) : Prop :=
  47 :: (a.sAliasName ++ [47]) <+: path

theorem AliasUri.covers_cut {a : AliasUri} {path query : Bytes} (hname : 63 ∉ a.sAliasName) :
    a.Covers (path ++ 63 :: query) ↔ a.CoversBelow path := by
  have hlead : 63 ∉ 47 :: (a.sAliasName ++ [47]) := by simp [hname]
  constructor
  · rintro (heq | hpre)
    · have hmem : 63 ∈ 47 :: a.sAliasName := heq ▸ by simp
      simp [hname] at hmem
    · have hmark : path ++ [63] <+: path ++ 63 :: query := ⟨query, by simp⟩
      rcases List.prefix_or_prefix_of_prefix hpre hmark with hpre | hpre
      · rcases List.prefix_concat_iff.mp hpre with heq | hpre
        · exact absurd (heq ▸ by simp) hlead
        · exact hpre
      · exact absurd (hpre.subset (by simp)) hlead
  · intro hpre
    exact .inr (hpre.trans (List.prefix_append _ _))

theorem AliasUri.not_coversBelow_name (a : AliasUri) : ¬ a.CoversBelow (47 :: a.sAliasName) := by
  intro hpre
  have hle := hpre.length_le
  simp at hle

namespace HttpdHost

variable {h : HttpdHost} {d p : RequestPath}

theorem findIdx?_answers (h : HttpdHost) (p : RequestPath) {k : Nat} :
    h.getAliasUri p.path = .named k ↔ h.aAliasDocumentRoot.findIdx? (·.answers p.path) = some k := by
  rw [getAliasUri_eq]
  cases h.aAliasDocumentRoot.findIdx? (·.answers p.path) <;> simp

/-- With a query behind it, the name of an alias alone is no longer taken for the alias. -/
theorem getAliasUri_cut_iff (h : HttpdHost) {d p : RequestPath} (hp : p.path = cutPath d.path)
    (hnames : ∀ a ∈ h.aAliasDocumentRoot, 63 ∉ a.sAliasName) :
    h.getAliasUri d.path = h.getAliasUri p.path ↔
      63 ∉ d.path ∨ ∀ k a, h.getAliasUri p.path = .named k → h.uris (.named k) = some a →
        p.path ≠ 47 :: a.sAliasName := by
  rcases cut_cases 63 d.path with hnot | ⟨path, query, hd, hpath⟩
  · rw [hp, (cut_plain hnot).1]
    exact iff_of_true rfl (.inl hnot)
  have hpeq : p.path = path := by rw [hp, hd, (cut_query hpath).1]
  rw [or_iff_right (not_not_intro (by rw [hd]; simp))]
  have hcover : ∀ a ∈ h.aAliasDocumentRoot,
      (a.answers d.path = true ↔ a.CoversBelow p.path) := by
    intro a ha
    rw [answers_request ha d, hd, AliasUri.covers_cut (hnames a ha), hpeq]
  constructor
  · intro heq k a hk ha hname
    rw [hk] at heq
    have hfind := (findIdx?_answers h d).mp heq
    obtain ⟨hlt, hans, -⟩ := List.findIdx?_eq_some_iff_getElem.mp hfind
    obtain rfl : h.aAliasDocumentRoot[k] = a := by
      have hget : h.aAliasDocumentRoot[k]? = some a := ha
      rw [List.getElem?_eq_getElem hlt] at hget
      exact Option.some.inj hget
    have hbelow := (hcover _ (List.getElem_mem hlt)).mp hans
    rw [hname] at hbelow
    exact AliasUri.not_coversBelow_name _ hbelow
  · intro hall
    rw [getAliasUri_eq, getAliasUri_eq]
    congr 1
    rcases hfind : h.aAliasDocumentRoot.findIdx? (·.answers p.path) with _ | k
    · rw [hfind]
      rw [List.findIdx?_eq_none_iff] at hfind ⊢
      intro a ha
      rw [← Bool.not_eq_true, hcover a ha]
      intro hbelow
      have hans := (answers_request ha p).mpr (.inr hbelow)
      rw [hfind a ha] at hans
      cases hans
    · obtain ⟨hlt, hans, hbefore⟩ := List.findIdx?_eq_some_iff_getElem.mp hfind
      have hmem := List.getElem_mem hlt
      rw [hfind]
      refine List.findIdx?_eq_some_iff_getElem.mpr ⟨hlt, ?_, fun j hj => ?_⟩
      · have hname := hall k _ ((findIdx?_answers h p).mpr hfind) (List.getElem?_eq_getElem hlt)
        exact (hcover _ hmem).mpr (((answers_request hmem p).mp hans).resolve_left hname)
      · have hmem' := List.getElem_mem (hj.trans hlt)
        intro hansd
        exact hbefore j hj ((answers_request hmem' p).mpr (.inr ((hcover _ hmem').mp hansd)))

end HttpdHost

/-! ## The attributes -/

theorem AliasUri.behindAlias_cut {a : AliasUri} {d p : RequestPath} {rest : Bytes}
    (hp : p.path = cutPath d.path) (hname : 63 ∉ a.sAliasName) (hd : d.path = a.lead ++ rest) :
    a.behindAlias p.path = some (cutPath rest) := by
  have hlead : 63 ∉ a.lead := by
    rw [AliasUri.lead]
    split_ifs
    · exact List.not_mem_nil
    · simp [hname]
  have hcut : p.path = a.lead ++ cutPath rest := by
    rw [hp, hd, cutPath, cutPath, List.takeWhile_append_of_pos]
    intro c hc
    simp only [decide_eq_true_eq]
    rintro rfl
    exact hlead hc
  rw [hcut]
  exact AliasUri.behindAlias_lead (hcut ▸ p.length_lt)

/-- For a request with the target `d` and the file `p`, and a text for `Stat` of less than 2 GB, the check
and the read take the same root, and the attributes of an origin there are those of the file that is opened, exactly as long as
- the file is not the name of an alias with a query behind it,
- the text is not read with a scheme, and its fragment is not read from outside, and
- it has a query, or it does not end with a blank. -/
theorem check_open_iff (h : HttpdHost) {d p : RequestPath} (hp : p.path = cutPath d.path)
    (hnames : ∀ a ∈ h.aAliasDocumentRoot, 63 ∉ a.sAliasName) {a : AliasUri} {uri : Uri} {rest : Bytes}
    (ha : h.uris (h.getAliasUri d.path) = some a) (hrest : a.behindAlias d.path = some rest)
    (hroot : uri.Rooted) (hlen : (LocalFs.rpath uri rest).length < 2 ^ 31) :
    (h.getAliasUri d.path = h.getAliasUri p.path ∧ ∃ file, a.behindAlias p.path = some file ∧
      LocalFs.statPath uri rest = some (.ok (LocalFs.rpath uri file))) ↔
      (63 ∉ d.path ∨ ∀ k b, h.getAliasUri p.path = .named k → h.uris (.named k) = some b →
        p.path ≠ 47 :: b.sAliasName) ∧
      ¬ SchemeLike (trim (LocalFs.rpath uri rest)) ∧ FragmentFits (trim (LocalFs.rpath uri rest)) ∧
        (63 ∈ d.path ∨ trim (LocalFs.rpath uri rest) = LocalFs.rpath uri rest) := by
  obtain ⟨a', rest', ha', hd, hrest', -⟩ := (getAliasUri_separates h d).2.2
  obtain rfl : a = a' := Option.some.inj (ha.symm.trans ha')
  obtain rfl : rest = rest' := Option.some.inj (hrest.symm.trans hrest')
  have hname : 63 ∉ a.sAliasName := by
    cases hk : h.getAliasUri d.path with
    | base =>
      rw [hk] at ha
      obtain rfl : h.aBaseDocumentRoot = a := Option.some.inj ha
      rw [h.base_name]
      exact List.not_mem_nil
    | named k =>
      rw [hk] at ha
      exact hnames a (List.mem_of_getElem? ha)
  have h0 : 0 ∉ rest := fun hmem => d.no_nul (hd ▸ List.mem_append_right _ hmem)
  have hmark : 63 ∈ d.path ↔ 63 ∈ rest := by
    rw [hd, List.mem_append, or_iff_right]
    rw [AliasUri.lead]
    split_ifs
    · exact List.not_mem_nil
    · simp [hname]
  have hfile := AliasUri.behindAlias_cut hp hname hd
  rw [HttpdHost.getAliasUri_cut_iff h hp hnames, hmark, ← LocalFs.statPath_iff hroot h0 hlen]
  refine and_congr_right fun _ => ⟨?_, fun hstat => ⟨_, hfile, hstat⟩⟩
  rintro ⟨file, hfile', hstat⟩
  obtain rfl : cutPath rest = file := Option.some.inj (hfile.symm.trans hfile')
  exact hstat

def exRoot (path : String) : Uri :=
  { scheme := bytes "file", path := bytes path }

def exHost : HttpdHost where
  aBaseDocumentRoot := { aUris := [exRoot "/srv/www"] }
  aAliasDocumentRoot := [{ sAliasName := bytes "docs", aUris := [exRoot "/srv/docs"] }]
  base_name := rfl
  alias_name := by
    intro a ha
    rw [List.mem_singleton.mp ha]
    decide

/-- The name of the alias with a query, and its file. -/
def exTarget : RequestPath where
  path := bytes "/docs?v"
  head_eq := by decide
  no_nul := by decide
  length_lt := by decide

def exFile : RequestPath where
  path := bytes "/docs"
  head_eq := by decide
  no_nul := by decide
  length_lt := by decide

/-- The check looks below the root of the host, the read below that of the alias. -/
theorem check_open_iff_docs :
    ¬ (exHost.getAliasUri exTarget.path = exHost.getAliasUri exFile.path ∧
      ∃ file, exHost.aBaseDocumentRoot.behindAlias exFile.path = some file ∧
        LocalFs.statPath (exRoot "/srv/www") exTarget.path =
          some (.ok (LocalFs.rpath (exRoot "/srv/www") file))) := by
  have hnames : ∀ a ∈ exHost.aAliasDocumentRoot, 63 ∉ a.sAliasName := by
    intro a ha
    rw [List.mem_singleton.mp ha]
    decide
  rw [check_open_iff exHost (by decide) hnames (by decide) (by decide)
    ⟨by decide, by decide, by decide⟩ (by decide)]
  rintro ⟨hmark | hname, -⟩
  · exact absurd hmark (by decide)
  · exact hname 0 _ (by decide) rfl (by decide)

/-! ## The file that is opened -/

theorem Origins.exists_call {α : Type} {os : Origins α} {a : AliasUri} {rest : Bytes} {k : Nat} {x : α}
    (h : os.answer a rest k = some x) :
    ∃ uri, a.aUris[k]? = some uri ∧ os.call k uri rest = .ok x := by
  rw [Origins.answer] at h
  split at h
  · cases h
  next uri huri =>
    split_ifs at h
    refine ⟨uri, huri, ?_⟩
    cases hcall : os.call k uri rest with
    | error e =>
      rw [hcall] at h
      cases h
    | ok y =>
      rw [hcall] at h
      exact congrArg _ (Option.some.inj h)

theorem printed_ne_nil {s : Bytes} (h0 : 0 ∉ s) : printed s ≠ [] := by
  rw [printed]
  split_ifs with hnil
  · decide
  · rwa [cstr_of_not_mem h0]

/-- Paths with `/` and `.`. -/
def posix : Paths.Syntax UInt8 := ⟨47, 46⟩

/-- What a path leads to, from the directory `cwd` when it does not start with a slash. -/
def directory (cwd : List Bytes) (path : Bytes) : List Bytes :=
  walk (if path.head? = some 47 then [] else cwd) (posix.steps path)

theorem directory_append (cwd : List Bytes) {root rest : Bytes} (hne : root ≠ [])
    (hrest : rest = [] ∨ rest.head? = some 47) :
    directory cwd (root ++ rest) = walk (directory cwd root) (posix.steps rest) := by
  have hhead : (root ++ rest).head? = root.head? := by
    obtain ⟨c, t, rfl⟩ := List.exists_cons_of_ne_nil hne
    rfl
  have hnil : ∀ dir : List Bytes, walk dir (posix.steps []) = dir := fun _ => rfl
  rw [directory, directory, hhead]
  rcases rest with _ | ⟨c, t⟩
  · rw [List.append_nil, hnil]
  · obtain rfl : c = 47 := by simpa using hrest
    have hsplit : posix.steps (47 :: t) = posix.steps [] ++ posix.steps t :=
      posix.steps_append [] t
    have hroot : posix.steps (root ++ 47 :: t) = posix.steps root ++ posix.steps t :=
      posix.steps_append root t
    rw [hroot, hsplit, walk_append, walk_append, hnil]

namespace UriFs

variable {φ : Type} {disk : Bytes → Retval} {remote : RemoteFs φ}

/-- A file of this machine that is opened. -/
theorem open_localFile {uri : Uri} {path s : Bytes}
    (h : UriFs.open disk remote uri path = .ok (.localFile s)) :
    s = LocalFs.rpath uri path ∧ disk s = none := by
  rw [UriFs.open] at h
  split at h
  · cases h
  · split at h
    · cases h
    · cases h
      exact ⟨rfl, by assumption⟩
  · cases hremote : remote.open _ uri path with
    | error e =>
      rw [hremote] at h
      cases h
    | ok x =>
      rw [hremote] at h
      cases h

end UriFs

namespace OriginFs

variable {φ : Type} {disk : Bytes → Retval} {remote : RemoteFs φ} {o : OriginFs (OpenedFs φ)}
  {h : HttpdHost}

/-- A file that is opened for a request is the path of a root with the rest of the request behind it, and
from whatever directory relative roots are taken, it lies below that root exactly if the rest has nowhere
gone up further than down, or comes back by the names that the root ends with. -/
theorem open_under_iff (hinit : o.bInit = true) (hhost : o.host = some h) (hok : h.Ok)
    (hroots : ∀ ref a, h.uris ref = some a → ∀ uri ∈ a.aUris, 0 ∉ uri.path) (p : RequestPath)
    (cwd : List Bytes) {r : OriginResult (OpenedFs φ) (OpenedFs φ)} {s : Bytes}
    (hopen : o.open p.path (UriFs.origins disk remote) = some r) (hs : r.answer = .ok (.localFile s)) :
    ∃ a uri rest, h.uris (h.getAliasUri p.path) = some a ∧ uri ∈ a.aUris ∧ p.path = a.lead ++ rest ∧
      s = printed uri.path ++ rest ∧
      (Under (directory cwd (printed uri.path)) (directory cwd s) ↔
        ¬ Climbs (posix.steps rest) ∨
          ComesBack (directory cwd (printed uri.path)) (relative (posix.steps rest))) := by
  obtain ⟨a, rest, ha, hpath, hrest, hslash⟩ := (getAliasUri_separates h p).2.2
  have hmeets : Meets h p.path (UriFs.origins disk remote) (o.open p.path (UriFs.origins disk remote)) :=
    search_meets hinit hhost p (fun a ha => hok _ a ha) _ fun _ _ _ => rfl
  obtain ⟨a', rest', _, _, r', ha', hrest', hr', -, -, hsearched⟩ := hmeets
  obtain rfl : a = a' := Option.some.inj (ha.symm.trans ha')
  obtain rfl : rest = rest' := Option.some.inj (hrest.symm.trans hrest')
  obtain rfl : r = r' := Option.some.inj (hopen.symm.trans hr')
  obtain ⟨k, hanswer, -⟩ := hsearched.current _ hs
  obtain ⟨uri, huri, hcall⟩ := Origins.exists_call hanswer
  obtain ⟨hrpath, -⟩ := UriFs.open_localFile hcall
  refine ⟨a, uri, rest, ha, List.mem_of_getElem? huri, hpath, hrpath, ?_⟩
  have hroot := printed_ne_nil (hroots _ _ ha uri (List.mem_of_getElem? huri))
  rw [hrpath, LocalFs.rpath, directory_append cwd hroot hslash]
  exact under_iff _ _

/-- A request with more steps up than down. -/
def upPath : RequestPath where
  path := bytes "/a/../../key"
  head_eq := by decide
  no_nul := by decide
  length_lt := by decide

theorem open_under_iff_up :
    ∃ a uri rest, exHost.uris (exHost.getAliasUri upPath.path) = some a ∧ uri ∈ a.aUris ∧
      upPath.path = a.lead ++ rest ∧ bytes "/srv/www/a/../../key" = printed uri.path ++ rest ∧
      (Under (directory [] (printed uri.path)) (directory [] (bytes "/srv/www/a/../../key")) ↔
        ¬ Climbs (posix.steps rest) ∨
          ComesBack (directory [] (printed uri.path)) (relative (posix.steps rest))) := by
  have hok : exHost.Ok := by
    intro ref a ha
    cases ref with
    | base =>
      cases ha
      exact ⟨le_rfl, by decide⟩
    | named k =>
      obtain rfl : a = { sAliasName := bytes "docs", aUris := [exRoot "/srv/docs"] } :=
        List.mem_singleton.mp (List.mem_of_getElem? ha)
      exact ⟨le_rfl, by decide⟩
  have hroots : ∀ ref a, exHost.uris ref = some a → ∀ uri ∈ a.aUris, 0 ∉ uri.path := by
    intro ref a ha uri huri
    cases ref with
    | base =>
      cases ha
      rw [List.mem_singleton.mp huri]
      decide
    | named k =>
      obtain rfl : a = { sAliasName := bytes "docs", aUris := [exRoot "/srv/docs"] } :=
        List.mem_singleton.mp (List.mem_of_getElem? ha)
      rw [List.mem_singleton.mp huri]
      decide
  exact @open_under_iff Unit (fun _ => none) ⟨fun _ _ => none, fun _ _ _ => .ok ()⟩
    { bInit := true, host := some exHost } exHost rfl rfl hok hroots upPath [] _ _ rfl rfl

end OriginFs

end Dframework
