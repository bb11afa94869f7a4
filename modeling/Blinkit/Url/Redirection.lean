import Blinkit.Url.UrlCanonRelative
import Mathlib.Data.List.Flatten

/-!
# Redirection targets

What a reference is resolved to, against what RFC 3986 says of it. Two texts are compared with the
escapes of their unreserved characters replaced, and in a query also that of the apostrophe, which
the canonicalizer writes as an escape.

* `resolvedState_absolute`, `resolvedState_directory`, `resolvedState_name` — the path that is
  appended, for each kind of reference and of base path.
* `PathAgrees` — an appended path against the resolved one.
* `IsTarget` — a target that is valid, keeps the scheme and the authority of the base and has the
  path and the query of the resolution.
* `DirectoriesServe`, `ResolvesRight` — the base paths and the references for which it is right.

Principal results: `resolve_iff` and `resolve_pathless`.
-/

set_option autoImplicit false

namespace Blinkit.Url

open Cursor DotSegments

/-! ## The new path -/

section NewPath

variable (u : URLText)

theorem resolvedState_absolute (first : Segment) (rest : List Segment)
    (h : first = [] → rest = []) :
    resolvedState u.toURLParts (.absolute first rest h) =
      ⟨u.origin ++ slashed (removeDotSegments [] ((first :: rest).map canonicalSegment)), none,
        (first :: rest).all noNul⟩ := by
  have hpath := partialPath_path u.origin first rest (List.forall_mem_nil _) true
  rw [Bool.true_and] at hpath
  exact hpath

/-- The directories of a path behind its first slash. -/
def directories (p : Str) : List Str := (p.splitOn '/').dropLast

/-- What follows the last slash of a path, up to the last backslash. -/
def baseName (p : Str) : Str := ((p.splitOn '/').getLast?.getD []).rdropWhile notSlash

theorem directories_no_slash (p : Str) : ∀ d ∈ directories p, '/' ∉ d := fun _ hd =>
  Lib.Text.not_mem_of_mem_splitOn ((List.dropLast_sublist _).subset hd)

theorem splitOn_directories (p : Str) :
    p.splitOn '/' = directories p ++ [(p.splitOn '/').getLast?.getD []] := by
  have hne := List.splitOn_ne_nil '/' p
  unfold directories
  rw [List.getLast?_eq_some_getLast hne, Option.getD_some, List.dropLast_append_getLast]

/-- What is copied of a base path up to its last slash of either kind. -/
theorem rdropWhile_path (p : Str) :
    ('/' :: p).rdropWhile notSlash = slashed (directories p ++ [baseName p]) := by
  have hpath : '/' :: p = slashed (directories p) ++ '/' :: (p.splitOn '/').getLast?.getD [] := by
    rw [← slashed_splitOn p]
    conv_lhs => rw [splitOn_directories p]
    rw [slashed_append, slashed_singleton]
  have hslash : notSlash '/' = false := rfl
  rw [hpath, Lib.Text.rdropWhile_append_cons notSlash hslash, slashed_append, slashed_singleton]
  rfl

theorem baseName_last {p : Str} (h : baseName p ≠ []) :
    '/' ∉ baseName p ∧ (baseName p).getLast? = some '\\' := by
  have hno : '/' ∉ (p.splitOn '/').getLast?.getD [] := by
    have hne := List.splitOn_ne_nil '/' p
    rw [List.getLast?_eq_some_getLast hne, Option.getD_some]
    exact Lib.Text.not_mem_of_mem_splitOn (List.getLast_mem hne)
  have hname : '/' ∉ baseName p := fun hmem =>
    hno ((List.rdropWhile_prefix notSlash _).subset hmem)
  refine ⟨hname, ?_⟩
  have hlast := List.rdropWhile_last_not notSlash ((p.splitOn '/').getLast?.getD []) h
  rw [List.getLast?_eq_some_getLast h]
  have hmem : (baseName p).getLast h ∈ baseName p := List.getLast_mem h
  have hslash : isURLSlash ((baseName p).getLast h) = true := by
    have hnot : ¬(!isURLSlash ((baseName p).getLast h)) = true := hlast
    rw [Bool.not_eq_true', Bool.not_eq_false] at hnot
    exact hnot
  unfold isURLSlash at hslash
  rw [Bool.or_eq_true, beq_iff_eq, beq_iff_eq] at hslash
  rcases hslash with hslash | hslash
  · rw [hslash] at hmem
    exact absurd hmem hname
  · rw [hslash]

/-- **A reference behind a directory.** -/
theorem resolvedState_directory {p : Str} (hp : u.path = '/' :: p) (hname : baseName p = [])
    (first : Segment) (rest : List Segment) (h : first ≠ []) (hc : ':' ∉ textOf first) :
    resolvedState u.toURLParts (.relative first rest h hc) =
      ⟨u.origin ++ slashed (removeDotSegments (directories p)
        ((first :: rest).map canonicalSegment)), none, (first :: rest).all noNul⟩ := by
  have hpath := partialPath_path u.origin first rest (directories_no_slash p) true
  unfold resolvedState canonicalizePartialPath
  rw [hp, rdropWhile_path, hname]
  rw [Bool.true_and] at hpath
  exact hpath

/-- **A reference behind a name** that a backslash ends. -/
theorem resolvedState_name {p : Str} (hp : u.path = '/' :: p) (hname : baseName p ≠ [])
    (first : Segment) (rest : List Segment) (h : first ≠ []) (hc : ':' ∉ textOf first) :
    resolvedState u.toURLParts (.relative first rest h hc) =
      ⟨u.origin ++ slashed (removeDotSegments (directories p ++ [baseName p ++ canonicalSegment first])
        (rest.map canonicalSegment)), none, (first :: rest).all noNul⟩ := by
  obtain ⟨hno, hlast⟩ := baseName_last hname
  unfold resolvedState canonicalizePartialPath
  rw [hp, rdropWhile_path]
  exact partialPath_name u.origin (baseName p) first rest (directories_no_slash p) hno hlast

/-- A base path that begins with a backslash keeps it. -/
theorem resolvedState_backslash {c : Char} {p : Str} (hp : u.path = c :: p)
    (first : Segment) (rest : List Segment) (h : first ≠ []) (hc : ':' ∉ textOf first) :
    ∃ t, (resolvedState u.toURLParts (.relative first rest h hc)).output = u.origin ++ c :: t := by
  have hslash : notSlash c = false := by
    unfold notSlash
    rw [u.path_head c (by rw [hp]; rfl)]
    rfl
  have hcopy : (c :: p).rdropWhile notSlash = c :: p.rdropWhile notSlash :=
    Lib.Text.rdropWhile_cons notSlash hslash p
  have hstart : Kept u.origin.length (u.origin ++ [c])
      ⟨u.origin ++ c :: p.rdropWhile notSlash, none, true⟩ := by
    refine ⟨?_, ?_, fun _ hk => nomatch hk⟩
    · show (u.origin ++ c :: p.rdropWhile notSlash).take (u.origin.length + 1) = _
      rw [List.take_length_add_append]
      rfl
    · show u.origin.length < (u.origin ++ c :: p.rdropWhile notSlash).length
      rw [List.length_append, List.length_cons]
      omega
  have hkept := partialPath_kept (RefPath.relative first rest h hc).text 0 hstart
  unfold resolvedState canonicalizePartialPath
  simp only [hp, hcopy]
  have hsplit := List.take_append_drop (u.origin.length + 1) (partialPath u.origin.length
    (RefPath.relative first rest h hc).text 0
    ⟨u.origin ++ c :: p.rdropWhile notSlash, none, true⟩).output
  rw [hkept.front, List.append_assoc] at hsplit
  exact ⟨_, hsplit.symm⟩

end NewPath

/-! ## The new path against the resolved one -/

theorem unescape_canonicalSegment (us : Segment) :
    unescape isUnreserved (canonicalSegment us) = canonicalSegment us :=
  unescape_unescapedOf (by decide) (by decide) us

/-- How far segments climb above the directory behind which they stand. -/
def climbs (segs : List Segment) : Nat :=
  climb isCurSegment isUpSegment [] (segs.map canonicalSegment)

/-- What segments leave behind that directory. -/
def leaves (segs : List Segment) : List Str :=
  own isCurSegment isUpSegment [] (segs.map canonicalSegment)

theorem removeDotSegments_climbs (dirs : List Str) (segs : List Segment) :
    removeDotSegments dirs (segs.map canonicalSegment) =
      dirs.take (dirs.length - climbs segs) ++ leaves segs :=
  remove_eq isCurSegment isUpSegment [] dirs (segs.map canonicalSegment)

/-- What segments leave are segments, or blank. -/
theorem mem_leaves {segs : List Segment} {x : Str} (hx : x ∈ leaves segs) :
    (∃ us ∈ segs, x = canonicalSegment us) ∨ x = [] := by
  have hsub : (leaves segs).Sublist (segs.map canonicalSegment ++ [[]]) := by
    unfold leaves
    rw [own_eq]
    exact remove_sublist isCurSegment isUpSegment [] [] (segs.map canonicalSegment)
  rcases List.mem_append.mp (hsub.subset hx) with h | h
  · obtain ⟨us, hus, rfl⟩ := List.mem_map.mp h
    exact .inl ⟨us, hus, rfl⟩
  · exact .inr (List.mem_singleton.mp h)

theorem leaves_no_slash (segs : List Segment) : ∀ x ∈ leaves segs, '/' ∉ x := by
  intro x hx
  rcases mem_leaves hx with ⟨us, -, rfl⟩ | rfl
  · exact canonicalSegment_no_slash us
  · exact List.not_mem_nil

theorem unescape_leaves (segs : List Segment) :
    (leaves segs).map (unescape isUnreserved) = leaves segs := by
  refine (List.map_congr_left fun x hx => ?_).trans (List.map_id _)
  rcases mem_leaves hx with ⟨us, -, rfl⟩ | rfl
  · exact unescape_canonicalSegment us
  · rfl

/-- The directories of a base path, with the escapes of unreserved characters replaced. -/
def baseDirectories (p : Str) : List Str := (directories p).map (unescape isUnreserved)

theorem baseDirectories_length (p : Str) : (baseDirectories p).length = (directories p).length :=
  List.length_map _

theorem baseDirectories_no_slash (p : Str) : ∀ d ∈ baseDirectories p, '/' ∉ d := by
  intro d hd
  obtain ⟨x, hx, rfl⟩ := List.mem_map.mp hd
  exact unescape_no_slash (by decide) (directories_no_slash p x hx)

/-- Where a reference behind a directory leads to. -/
theorem resolvedPath_relative (p : Str) (first : Segment) (rest : List Segment) (h : first ≠ [])
    (hc : ':' ∉ textOf first) :
    resolvedPath (unescape isUnreserved ('/' :: p)) (.relative first rest h hc) =
      some (slashed (removeDotSegments []
        (baseDirectories p ++ (first :: rest).map canonicalSegment))) := by
  have hdirs : ((unescape isUnreserved p).splitOn '/').dropLast = baseDirectories p := by
    rw [splitOn_unescape (by decide), ← List.map_dropLast]
    rfl
  rw [unescape_cons (by decide), resolvedPath, hdirs]
  rfl

/-- **Directories are followed** before what stands behind them. -/
theorem removeDotSegments_behind (ds : List Str) {segs : List Segment} (hsegs : segs ≠ []) :
    removeDotSegments [] (ds ++ segs.map canonicalSegment) =
      (clean isCurSegment isUpSegment [] ds).take
        ((clean isCurSegment isUpSegment [] ds).length - climbs segs) ++ leaves segs := by
  have hne : segs.map canonicalSegment ≠ [] := fun h => hsegs (List.map_eq_nil_iff.mp h)
  have happend := remove_append isCurSegment isUpSegment [] [] ds hne
  rw [← removeDotSegments_climbs]
  exact happend

/-- **Paths agree** exactly when the directories serve as they are. -/
theorem slashed_clean_iff {ds : List Str} (hds : ∀ d ∈ ds, '/' ∉ d) (segs : List Segment) :
    slashed ((clean isCurSegment isUpSegment [] ds).take
        ((clean isCurSegment isUpSegment [] ds).length - climbs segs) ++ leaves segs) =
      slashed (ds.take (ds.length - climbs segs) ++ leaves segs) ↔
    Serves isCurSegment isUpSegment ds (climbs segs) := by
  constructor
  · intro heq
    have hplain : ∀ (xs : List Str) (n : Nat), (∀ x ∈ xs, '/' ∉ x) →
        ∀ x ∈ xs.take n ++ leaves segs, '/' ∉ x := by
      intro xs n hxs x hx
      rcases List.mem_append.mp hx with hx | hx
      · exact hxs x (List.mem_of_mem_take hx)
      · exact leaves_no_slash segs x hx
    have hclean : ∀ x ∈ clean isCurSegment isUpSegment [] ds, '/' ∉ x := fun x hx =>
      hds x ((clean_sublist isCurSegment isUpSegment [] ds).subset hx)
    -- each directory has a slash in front of it
    have hcount := congrArg (List.count '/') heq
    rw [count_slashed (hplain _ _ hclean), count_slashed (hplain _ _ hds), List.length_append,
      List.length_append, List.length_take, List.length_take] at hcount
    rw [clean_agrees_iff]
    omega
  · intro hserves
    rw [take_clean isCurSegment isUpSegment hserves]

/-- What is copied of a base serves behind its directories: nothing is left of them, or they hold no
dot segment. A name that a backslash ends takes the first segment of the reference with it, so that
the rest has to climb over both. -/
def DirectoriesServe (p : Str) (first : Segment) (rest : List Segment) : Prop :=
  if baseName p = [] then
    Serves isCurSegment isUpSegment (baseDirectories p) (climbs (first :: rest))
  else
    1 ≤ climbs rest ∧
      Serves isCurSegment isUpSegment (baseDirectories p ++ [canonicalSegment first]) (climbs rest)

/-! ## Agreement -/

/-- A path that begins with a slash and is the resolved one, but for escapes. -/
def PathAgrees (base : Str) (r : RefPath) (path : Str) : Prop :=
  path.head? = some '/' ∧
    resolvedPath (unescape isUnreserved base) r = some (unescape isUnreserved path)

theorem pathAgrees_slashed {base : Str} {r : RefPath} {xs ys : List Str} (hxs : xs ≠ [])
    (hr : resolvedPath (unescape isUnreserved base) r = some (slashed ys)) :
    PathAgrees base r (slashed xs) ↔ slashed ys = slashed (xs.map (unescape isUnreserved)) := by
  have hhead : (slashed xs).head? = some '/' := by
    obtain ⟨x, xs, rfl⟩ := List.exists_cons_of_ne_nil hxs
    rfl
  unfold PathAgrees
  rw [hr, unescape_slashed, Option.some.injEq]
  exact and_iff_right hhead

theorem pathAgrees_empty (base : Str) :
    PathAgrees base .empty base ↔ base.head? = some '/' := by
  constructor
  · exact And.left
  · intro h
    obtain ⟨p, rfl⟩ := List.head?_eq_some_iff.mp h
    refine ⟨rfl, ?_⟩
    rw [unescape_cons (by decide)]
    rfl

theorem pathAgrees_absolute (base : Str) (first : Segment) (rest : List Segment)
    (h : first = [] → rest = []) :
    PathAgrees base (.absolute first rest h)
      (slashed (removeDotSegments [] ((first :: rest).map canonicalSegment))) := by
  have hleaves : removeDotSegments [] ((first :: rest).map canonicalSegment) =
      leaves (first :: rest) := (own_eq isCurSegment isUpSegment [] _).symm
  have hne : removeDotSegments [] ((first :: rest).map canonicalSegment) ≠ [] :=
    remove_ne_nil isCurSegment isUpSegment [] [] (List.cons_ne_nil _ _)
  refine (pathAgrees_slashed hne rfl).mpr ?_
  rw [hleaves, unescape_leaves]
  exact congrArg slashed hleaves

theorem pathAgrees_directory (p : Str) (first : Segment) (rest : List Segment) (h : first ≠ [])
    (hc : ':' ∉ textOf first) :
    PathAgrees ('/' :: p) (.relative first rest h hc)
        (slashed (removeDotSegments (directories p) ((first :: rest).map canonicalSegment))) ↔
      Serves isCurSegment isUpSegment (baseDirectories p) (climbs (first :: rest)) := by
  have hne : removeDotSegments (directories p) ((first :: rest).map canonicalSegment) ≠ [] :=
    remove_ne_nil isCurSegment isUpSegment [] _ (List.cons_ne_nil _ _)
  have hcopied : (removeDotSegments (directories p) ((first :: rest).map canonicalSegment)).map
      (unescape isUnreserved) =
      (baseDirectories p).take ((baseDirectories p).length - climbs (first :: rest)) ++
        leaves (first :: rest) := by
    rw [removeDotSegments_climbs, List.map_append, List.map_take, unescape_leaves,
      baseDirectories_length]
    rfl
  rw [pathAgrees_slashed hne (resolvedPath_relative p first rest h hc), hcopied,
    removeDotSegments_behind _ (List.cons_ne_nil first rest)]
  exact slashed_clean_iff (baseDirectories_no_slash p) (first :: rest)

/-- A reference has no backslash, not even an escaped one. -/
theorem canonicalSegment_no_backslash (us : Segment) : '\\' ∉ canonicalSegment us := by
  have htext : unescape isUnreserved (textOf us) = canonicalSegment us :=
    unescape_textOf (by decide) us
  rw [← htext, ← List.count_eq_zero, count_unescape (by decide) (by decide) (by decide),
    List.count_eq_zero]
  intro hmem
  rcases mem_textOf hmem with hmem | hmem | hmem
  · exact absurd hmem (by decide)
  · exact absurd hmem (by decide)
  · exact absurd hmem (by decide)

theorem count_slashed_backslash {xs : List Str} (h : ∀ x ∈ xs, '\\' ∉ x) :
    (slashed xs).count '\\' = 0 := by
  refine List.count_eq_zero.mpr fun hmem => ?_
  rcases mem_slashed hmem with heq | ⟨x, hx, hmem⟩
  · exact absurd heq (by decide)
  · exact h x hx hmem

/-- **A name that is not climbed over** stays in the path with its backslash. -/
theorem not_pathAgrees_name {p : Str} (hname : baseName p ≠ []) (first : Segment)
    (rest : List Segment) (h : first ≠ []) (hc : ':' ∉ textOf first) (hzero : climbs rest = 0) :
    ¬PathAgrees ('/' :: p) (.relative first rest h hc)
      (slashed (removeDotSegments (directories p ++ [baseName p ++ canonicalSegment first])
        (rest.map canonicalSegment))) := by
  rintro ⟨-, hagree⟩
  rw [resolvedPath_relative, Option.some.injEq] at hagree
  have hcount := congrArg (List.count '\\') hagree
  rw [count_unescape (by decide) (by decide) (by decide), removeDotSegments_climbs, hzero,
    Nat.sub_zero, List.take_length, slashed_append, slashed_append, slashed_singleton,
    List.count_append, List.count_append] at hcount
  -- the resolved path has the backslashes of the base's directories only
  have hsub := remove_sublist isCurSegment isUpSegment [] []
    (baseDirectories p ++ (first :: rest).map canonicalSegment)
  have hle : (slashed (removeDotSegments []
      (baseDirectories p ++ (first :: rest).map canonicalSegment))).count '\\' ≤
      (slashed (directories p)).count '\\' := by
    have hplain : ∀ x ∈ (first :: rest).map canonicalSegment ++ [[]], '\\' ∉ x := by
      intro x hx
      rcases List.mem_append.mp hx with hx | hx
      · obtain ⟨us, -, rfl⟩ := List.mem_map.mp hx
        exact canonicalSegment_no_backslash us
      · rw [List.mem_singleton.mp hx]
        exact List.not_mem_nil
    have hdirs : (slashed (baseDirectories p)).count '\\' =
        (slashed (directories p)).count '\\' := by
      unfold baseDirectories
      rw [← unescape_slashed, count_unescape (by decide) (by decide) (by decide)]
    have hflat : (slashed (removeDotSegments []
        (baseDirectories p ++ (first :: rest).map canonicalSegment))).Sublist
        (slashed (baseDirectories p ++ ((first :: rest).map canonicalSegment ++ [[]]))) := by
      rw [List.nil_append, List.append_assoc] at hsub
      exact hsub.flatMap _
    refine (hflat.count_le '\\').trans ?_
    rw [slashed_append, List.count_append, count_slashed_backslash hplain, hdirs]
    exact Nat.le_refl _
  have hlast : 0 < ('/' :: (baseName p ++ canonicalSegment first)).count '\\' := by
    have hmem : '\\' ∈ baseName p := List.mem_of_getLast? (baseName_last hname).2
    exact List.count_pos_iff.mpr
      (List.mem_cons_of_mem _ (List.mem_append_left _ hmem))
  omega

theorem pathAgrees_name {p : Str} (hname : baseName p ≠ []) (first : Segment)
    (rest : List Segment) (h : first ≠ []) (hc : ':' ∉ textOf first) :
    PathAgrees ('/' :: p) (.relative first rest h hc)
        (slashed (removeDotSegments (directories p ++ [baseName p ++ canonicalSegment first])
          (rest.map canonicalSegment))) ↔
      1 ≤ climbs rest ∧
        Serves isCurSegment isUpSegment (baseDirectories p ++ [canonicalSegment first])
          (climbs rest) := by
  by_cases hclimb : climbs rest = 0
  · refine iff_of_false (not_pathAgrees_name hname first rest h hc hclimb) ?_
    rintro ⟨hpos, -⟩
    omega
  · have hrest : rest ≠ [] := by
      rintro rfl
      exact hclimb rfl
    have hsegs : rest.map canonicalSegment ≠ [] := fun hnil => hrest (List.map_eq_nil_iff.mp hnil)
    have hne : removeDotSegments (directories p ++ [baseName p ++ canonicalSegment first])
        (rest.map canonicalSegment) ≠ [] := remove_ne_nil isCurSegment isUpSegment [] _ hsegs
    have hplain : ∀ d ∈ baseDirectories p ++ [canonicalSegment first], '/' ∉ d := by
      intro d hd
      rcases List.mem_append.mp hd with hd | hd
      · exact baseDirectories_no_slash p d hd
      · rw [List.mem_singleton.mp hd]
        exact canonicalSegment_no_slash first
    -- the name is one of the directories that the rest climbs over
    have hcopied : (removeDotSegments (directories p ++ [baseName p ++ canonicalSegment first])
        (rest.map canonicalSegment)).map (unescape isUnreserved) =
        (baseDirectories p ++ [canonicalSegment first]).take
          ((baseDirectories p ++ [canonicalSegment first]).length - climbs rest) ++ leaves rest := by
      have hlen : (directories p ++ [baseName p ++ canonicalSegment first]).length - climbs rest ≤
          (directories p).length := by
        rw [List.length_append, List.length_singleton]
        omega
      have hlen' : (baseDirectories p ++ [canonicalSegment first]).length - climbs rest =
          (directories p ++ [baseName p ++ canonicalSegment first]).length - climbs rest := by
        rw [List.length_append, List.length_append, baseDirectories_length]
        rfl
      rw [removeDotSegments_climbs, hlen', List.take_append_of_le_length hlen,
        List.take_append_of_le_length (by rw [baseDirectories_length]; exact hlen),
        List.map_append, List.map_take, unescape_leaves]
      rfl
    have hsplit : baseDirectories p ++ (first :: rest).map canonicalSegment =
        (baseDirectories p ++ [canonicalSegment first]) ++ rest.map canonicalSegment := by
      rw [List.append_assoc]
      rfl
    rw [pathAgrees_slashed hne (resolvedPath_relative p first rest h hc), hcopied, hsplit,
      removeDotSegments_behind _ hrest, slashed_clean_iff hplain rest]
    exact (and_iff_right (Nat.pos_of_ne_zero hclimb)).symm

/-! ## The target -/

namespace BkURL

/-- `Path`. -/
def path (v : BkURL) : Str := v.componentString v.parsed.path

/-- The query, when there is one. -/
def query (v : BkURL) : Option Str :=
  if v.parsed.query.isValid = true then some (v.componentString v.parsed.query) else none

/-- The parts of the authority. -/
def authority (v : BkURL) : List Str :=
  [v.parsed.username, v.parsed.password, v.parsed.host, v.parsed.port].map v.componentString

/-- Components are read alike where the strings are alike. -/
theorem componentString_agrees {v w : BkURL} {i n : Nat} (hstring : v.string.take n = w.string.take n)
    {c : Component} (hc : c.Within i n) : v.componentString c = w.componentString c := by
  unfold componentString
  split
  · rename_i hnonempty
    have hpos : 0 < c.len := of_decide_eq_true hnonempty
    have hvalid : c.isValid = true := bne_iff_ne.mpr (by omega)
    obtain ⟨-, -, hend⟩ := hc hvalid
    have hfinish : c.finish ≤ n := by
      unfold Component.finish
      omega
    have htake : ∀ s : Str, s.take c.finish = (s.take n).take c.finish := by
      intro s
      rw [List.take_take, Nat.min_eq_left hfinish]
    unfold slice
    rw [htake, hstring, ← htake]
  · rfl

/-- A text that is there is read back. -/
theorem componentString_range {v : BkURL} {i : Nat} {x t : Str} (h : At v.string i (x ++ t)) :
    v.componentString (makeRange i (i + x.length)) = x := by
  have hlen : (makeRange i (i + x.length)).len = x.length := by
    show ((i + x.length : Nat) : Int) - i = x.length
    omega
  unfold componentString Component.isNonempty
  rw [hlen, makeRange_finish (Nat.le_add_right _ _)]
  split
  · exact h.slice
  · rename_i hempty
    rw [decide_eq_true_iff, Int.natCast_pos, List.length_pos_iff, not_not] at hempty
    exact hempty.symm

end BkURL

/-- The characters that mean the same in a query, escaped and not. -/
def isQueryPlain (c : Char) : Bool := isUnreserved c || c == '\x27'

/-- What a redirection should lead to. -/
structure IsTarget (u : URLText) (r : Reference) (t : BkURL) : Prop where
  valid : t.isValid = true
  scheme : t.componentString t.parsed.scheme = u.scheme
  authority : t.authority = (BkURL.ofString u.text).authority
  path : PathAgrees u.path r.path t.path
  query : t.query.map (unescape isQueryPlain) =
    (resolvedQuery u.query r).map (unescape isQueryPlain)
  string : t.string = u.origin ++ (t.path ++ (marked '?' t.query ++ marked '#' r.fragmentText))

/-! ## The query -/

/-- An escape of a character for its escape. -/
def escapedApostrophe : PChar isQueryPchar → PChar isQueryPchar
  | .plain c h => if c = '\x27' then .escaped '2' '7' (by decide) (by decide) else .plain c h
  | .escaped hi lo hhi hlo => .escaped hi lo hhi hlo

theorem escapedApostrophe_text {c : Char} (h : isQueryPchar c = true) :
    (escapedApostrophe (.plain c h)).text = if c = '\x27' then ['%', '2', '7'] else [c] := by
  show PChar.text (if c = '\x27' then _ else _) = _
  split <;> rfl

theorem escapedApostrophe_unescaped (p : PChar isQueryPchar) :
    (escapedApostrophe p).unescaped isQueryPlain = p.unescaped isQueryPlain := by
  cases p with
  | plain c h =>
    show PChar.unescaped isQueryPlain (if c = '\x27' then _ else _) = [c]
    split
    · rename_i hc
      rw [hc]
      decide
    · rfl
  | escaped hi lo hhi hlo => rfl

theorem hexDigit_query : ∀ c ∈ hexDigits, isQueryChar c = true := by
  decide

theorem queryPchar_low : ∀ n < 127, isQueryPchar (Char.ofNat n) = true →
    isQueryChar (Char.ofNat n) = true ∨ Char.ofNat n = '\x27' := by
  decide

/-- The canonicalizer escapes the apostrophes of a query. -/
theorem rawQueryString_textOf (us : QueryText) :
    rawQueryString (textOf us) = textOf (us.map escapedApostrophe) := by
  induction us with
  | nil => rfl
  | cons p us ih =>
    unfold rawQueryString textOf at ih ⊢
    rw [List.flatMap_cons, List.flatMap_append, ih, List.map_cons, List.flatMap_cons]
    congr 1
    cases p with
    | plain c h =>
      have hc : isQueryChar c = true ∨ c = '\x27' := by
        have hrange : c.toNat < 127 := by
          have href : isReferenceChar c = true := by
            unfold isReferenceChar
            rw [h]
            rfl
          exact (referenceChar_range href).2.1
        have hlow := queryPchar_low c.toNat hrange
        rw [Char.ofNat_toNat] at hlow
        exact hlow h
      rcases hc with hc | rfl
      · have hne : c ≠ '\x27' := by
          rintro rfl
          exact absurd hc (by decide)
        rw [escapedApostrophe_text, if_neg hne]
        show (if isQueryChar c = true then [c] else appendEscapedChar c []) ++ [] = [c]
        rw [if_pos hc]
        rfl
      · rw [escapedApostrophe_text, if_pos rfl]
        show ['\x27'].flatMap (fun c => if isQueryChar c = true then [c]
          else appendEscapedChar c []) = ['%', '2', '7']
        decide
    | escaped hi lo hhi hlo =>
      show ['%', hi, lo].flatMap (fun c => if isQueryChar c = true then [c]
        else appendEscapedChar c []) = ['%', hi, lo]
      simp only [List.flatMap_cons, List.flatMap_nil, hexDigit_query hi (mem_hexDigits hhi),
        hexDigit_query lo (mem_hexDigits hlo), if_true]
      rfl

theorem unescape_rawQueryString (us : QueryText) :
    unescape isQueryPlain (rawQueryString (textOf us)) = unescape isQueryPlain (textOf us) := by
  have htext : ∀ vs : QueryText,
      unescape isQueryPlain (textOf vs) = unescapedOf isQueryPlain vs :=
    fun vs => unescape_textOf (by decide) vs
  rw [rawQueryString_textOf, htext, htext]
  unfold unescapedOf
  rw [List.flatMap_map]
  congr 1
  funext p
  exact escapedApostrophe_unescaped p

/-- **The query is the resolved one**, but for escapes. -/
theorem newQuery_agrees (u : URLParts) (r : Reference) :
    (newQuery u r).map (unescape isQueryPlain) =
      (resolvedQuery u.query r).map (unescape isQueryPlain) := by
  have hmap : (r.queryText.map rawQueryString).map (unescape isQueryPlain) =
      r.queryText.map (unescape isQueryPlain) := by
    unfold Reference.queryText
    cases r.query with
    | none => rfl
    | some us => exact congrArg some (unescape_rawQueryString us)
  unfold newQuery resolvedQuery
  cases hpath : r.path with
  | empty =>
    cases hquery : r.query with
    | none => rfl
    | some us => exact hmap
  | absolute first rest h => exact hmap
  | relative first rest h hc => exact hmap

/-! ## Resolution -/

/-- What a base path has to be for a reference to lead to the right path. -/
def PathServes (base : Str) : RefPath → Prop
  | .empty => base.head? = some '/'
  | .absolute _ _ _ => True
  | .relative first rest _ _ => ∃ p, base = '/' :: p ∧ DirectoriesServe p first rest

/-- A path without an escape of the character that is refused. -/
def RefPath.noNul : RefPath → Bool
  | .empty => true
  | .absolute first rest _ => (first :: rest).all Url.noNul
  | .relative first rest _ _ => (first :: rest).all Url.noNul

/-- The base paths and the references for which the target is right. -/
structure ResolvesRight (base : Str) (r : RefPath) : Prop where
  path : base ≠ []
  noNul : r.noNul = true
  serves : PathServes base r

section Target

variable (u : URLText)

/-- **The path that is appended**, and when it is the resolved one. -/
theorem resolvedState_agrees (r : RefPath) (hpath : u.path ≠ []) :
    ∃ path, (resolvedState u.toURLParts r).output = u.origin ++ path ∧
      (PathAgrees u.path r path ↔ PathServes u.path r) := by
  cases r with
  | empty => exact ⟨u.path, rfl, pathAgrees_empty u.path⟩
  | absolute first rest h =>
    rw [resolvedState_absolute]
    exact ⟨_, rfl, iff_of_true (pathAgrees_absolute u.path first rest h) trivial⟩
  | relative first rest h hc =>
    obtain ⟨c, p, hp⟩ := List.exists_cons_of_ne_nil hpath
    by_cases hslash : c = '/'
    · rw [hslash] at hp
      have hserves : PathServes u.path (.relative first rest h hc) ↔
          DirectoriesServe p first rest := by
        unfold PathServes
        rw [hp]
        constructor
        · rintro ⟨q, hq, hserve⟩
          rw [List.tail_eq_of_cons_eq hq]
          exact hserve
        · exact fun hserve => ⟨p, rfl, hserve⟩
      rw [hserves, hp]
      unfold DirectoriesServe
      by_cases hname : baseName p = []
      · rw [resolvedState_directory u hp hname, if_pos hname]
        exact ⟨_, rfl, pathAgrees_directory p first rest h hc⟩
      · rw [resolvedState_name u hp hname, if_neg hname]
        exact ⟨_, rfl, pathAgrees_name hname first rest h hc⟩
    · obtain ⟨t, ht⟩ := resolvedState_backslash u hp first rest h hc
      refine ⟨c :: t, ht, iff_of_false ?_ ?_⟩
      · rintro ⟨hhead, -⟩
        exact hslash (Option.some.inj hhead)
      · rintro ⟨q, hq, -⟩
        rw [hp] at hq
        exact hslash (List.head_eq_of_cons_eq hq)

theorem resolvedState_success {r : RefPath} (h : PathServes u.path r) :
    (resolvedState u.toURLParts r).success = r.noNul := by
  cases r with
  | empty => rfl
  | absolute first rest hfirst =>
    rw [resolvedState_absolute]
    rfl
  | relative first rest hfirst hc =>
    obtain ⟨p, hp, -⟩ := h
    by_cases hname : baseName p = []
    · rw [resolvedState_directory u hp hname]
      rfl
    · rw [resolvedState_name u hp hname]
      rfl

variable (e : Elsewhere) (windows : Bool) (r : Reference)

/-- The parts of what is appended to the base. -/
theorem resolution_parts {path : Str}
    (hout : (resolvedState u.toURLParts r.path).output = u.origin ++ path) :
    let t : BkURL := ⟨true, (resolution u.toURLParts r).output, (resolution u.toURLParts r).parsed⟩
    t.path = path ∧ t.query = newQuery u.toURLParts r ∧
      t.string = u.origin ++ (path ++ (marked '?' (newQuery u.toURLParts r) ++ marked '#' r.fragmentText)) ∧
      t.componentString t.parsed.scheme = u.scheme ∧
      t.authority = (BkURL.ofString u.text).authority := by
  intro t
  have hstring : t.string =
      u.origin ++ (path ++ (marked '?' (newQuery u.toURLParts r) ++ marked '#' r.fragmentText)) := by
    show (resolvedState u.toURLParts r.path).output ++ _ = _
    rw [hout, List.append_assoc]
  have hlen : (resolvedState u.toURLParts r.path).output.length = u.pathStart + path.length := by
    rw [hout, List.length_append, u.origin_length]
  have hpath : At t.string u.pathStart
      (path ++ (marked '?' (newQuery u.toURLParts r) ++ marked '#' r.fragmentText)) := by
    rw [hstring, ← u.origin_length]
    exact at_append _ _
  have htake : t.string.take u.pathStart = (BkURL.ofString u.text).string.take u.pathStart := by
    have hbase : (BkURL.ofString u.text).string.take u.pathStart = u.origin := take_origin u
    rw [hbase, hstring, ← u.origin_length, List.take_left]
  have hparsed : (BkURL.ofString u.text).parsed = u.parsed := text_parsed u
  refine ⟨?_, ?_, hstring, ?_, ?_⟩
  · show t.componentString (makeRange u.pathStart _) = path
    rw [hlen]
    exact BkURL.componentString_range hpath
  · have hquery : t.parsed.query = markedAt (u.pathStart + path.length) (newQuery u.toURLParts r) := by
      rw [← hlen]
      rfl
    have hat := hpath.append
    unfold BkURL.query
    rw [hquery, markedAt_isValid]
    cases hq : newQuery u.toURLParts r with
    | none => rfl
    | some q =>
      rw [hq] at hat
      rw [if_pos Option.isSome_some]
      exact congrArg some (BkURL.componentString_range hat.succ)
  · have hwithin : u.parsed.scheme.Within 0 u.pathStart := by
      refine within_makeRange (Nat.zero_le _) (Nat.le_add_right _ _) ?_
      show u.schemeEnd ≤ u.schemeEnd + 1 + u.slashes.length + u.authority.length
      omega
    have hbase := componentString_scheme u
    rw [hparsed] at hbase
    rw [← hbase]
    exact BkURL.componentString_agrees htake hwithin
  · have hwithin : u.parsed.toAuthority.Within u.authorityStart u.pathStart :=
      doParseAuthority_within u.spec (Nat.le_add_right u.authorityStart u.authority.length)
    unfold BkURL.authority
    rw [hparsed]
    have hsame : ∀ c : Component, c.Within u.authorityStart u.pathStart →
        t.componentString c = (BkURL.ofString u.text).componentString c := fun c hc =>
      BkURL.componentString_agrees htake hc
    show [t.componentString u.parsed.username, t.componentString u.parsed.password,
      t.componentString u.parsed.host, t.componentString u.parsed.port] = _
    rw [hsame _ hwithin.username, hsame _ hwithin.password, hsame _ hwithin.host,
      hsame _ hwithin.port]
    rfl

theorem isTarget_iff (hweb : HasWebScheme u) (hne : r.text ≠ []) :
    IsTarget u r ((BkURL.ofString u.text).resolve e windows r.text) ↔ ResolvesRight u.path r.path := by
  rw [resolve_reference e windows u r hweb hne]
  split
  · rename_i hbad
    refine iff_of_false (fun h => nomatch h.valid) (fun h => ?_)
    rcases hbad with hbad | hbad
    · exact h.path hbad
    · rw [resolvedState_success u h.serves, h.noNul] at hbad
      cases hbad
  · rename_i hgood
    rw [not_or, Bool.not_eq_false] at hgood
    obtain ⟨path, hout, hagree⟩ := resolvedState_agrees u r.path hgood.1
    obtain ⟨hpath, hquery, hstring, hscheme, hauthority⟩ := resolution_parts u r hout
    constructor
    · intro h
      have hserves : PathServes u.path r.path := by
        have hagrees := h.path
        rw [hpath] at hagrees
        exact hagree.mp hagrees
      exact ⟨hgood.1, (resolvedState_success u hserves).symm.trans hgood.2, hserves⟩
    · intro h
      refine ⟨rfl, hscheme, hauthority, ?_, ?_, ?_⟩
      · rw [hpath]
        exact hagree.mpr h.serves
      · rw [hquery]
        exact newQuery_agrees u.toURLParts r
      · rw [hpath, hquery]
        exact hstring

end Target

/-- **Redirection targets.** The base keeps its text, and the target is what the reference resolves
to exactly when the base has a path that serves and the reference has no escape that is refused. -/
theorem resolve_iff (e : Elsewhere) (windows : Bool) (s : Str)
    (h : (BkURL.ofString s).schemeIsHTTPOrHTTPS = true) :
    (∃ u : URLText, u.text = s) ∧ ∀ u : URLText, u.text = s → ∀ r : Reference, r.text ≠ [] →
      resolveRedirection e windows s r.text =
        (s, ((BkURL.ofString s).resolve e windows r.text).string) ∧
      (IsTarget u r ((BkURL.ofString s).resolve e windows r.text) ↔
        ResolvesRight u.path r.path) := by
  refine ⟨exists_text_of_scheme h, ?_⟩
  rintro u rfl r hne
  rw [schemeIsHTTPOrHTTPS_iff, componentString_scheme] at h
  refine ⟨?_, isTarget_iff u e windows r h hne⟩
  unfold resolveRedirection
  rw [if_neg hne]

/-- No code elsewhere. -/
def nowhere : Elsewhere where
  canonicalize := fun _ => ⟨false, [], Parsed.unset⟩
  resolveRelativeHost := fun _ _ _ _ => ⟨false, [], Parsed.unset⟩
  resolveAbsoluteFile := fun _ _ => ⟨false, [], Parsed.unset⟩
  appendStringOfType := fun s => s
  readUTFChar := fun _ => ([], 0)

/-- The reference `c`. -/
def fileReference : Reference where
  path := .relative [.plain 'c' (by decide)] [] (List.cons_ne_nil _ _) (by decide)
  query := none
  fragment := none

/-- The string `http://h`, with a path behind it. -/
def hostWith (path : Str) : Str := ['h', 't', 't', 'p', ':', '/', '/', 'h'] ++ path

/-- The parts of `http://h/a/b`. -/
def hostWithPath : URLText where
  lead := []
  scheme := BkURL.httpScheme
  slashes := ['/', '/']
  authority := ['h']
  path := ['/', 'a', '/', 'b']
  query := none
  ref := none
  trail := []
  lead_blank := no_blank
  scheme_head := httpScheme_head
  scheme_plain := httpScheme_plain
  slashes_plain := twoSlashes_plain
  authority_plain := shortHost_plain
  path_head := fun c hc => by
    obtain rfl := Option.some.inj hc
    rfl
  path_behind := fun h => nomatch h
  path_plain := by decide
  query_plain := fun _ hq => nomatch hq
  trail_blank := no_blank
  last_plain := fun c hc => by
    obtain rfl := Option.some.inj hc
    rfl

theorem resolve_directory :
    IsTarget hostWithPath fileReference
      ((BkURL.ofString (hostWith ['/', 'a', '/', 'b'])).resolve nowhere false fileReference.text) ∧
    (resolveRedirection nowhere false (hostWith ['/', 'a', '/', 'b']) fileReference.text).2 =
      hostWith ['/', 'a', '/', 'c'] := by
  have hserves : PathServes hostWithPath.path fileReference.path := by
    refine ⟨['a', '/', 'b'], rfl, ?_⟩
    unfold DirectoriesServe
    rw [if_pos (by decide +kernel)]
    exact .inl (by decide +kernel)
  obtain ⟨-, hiff⟩ := (resolve_iff nowhere false (hostWith ['/', 'a', '/', 'b'])
    (by decide +kernel)).2 hostWithPath rfl fileReference (by decide)
  exact ⟨hiff.mpr ⟨by decide, by decide, hserves⟩, by decide +kernel⟩

/-- **A base without a path** has no targets: the redirection leaves an empty string. -/
theorem resolve_pathless :
    (BkURL.ofString (hostWith [])).schemeIsHTTPOrHTTPS = true ∧ fileReference.text ≠ [] ∧
    ((BkURL.ofString (hostWith [])).resolve nowhere false fileReference.text).isValid = false ∧
    resolveRedirection nowhere false (hostWith []) fileReference.text = (hostWith [], []) ∧
    resolvedPath [] fileReference.path = some ['/', 'c'] :=
  ⟨by decide +kernel, by decide, by decide +kernel, by decide +kernel, by decide +kernel⟩

end Blinkit.Url
