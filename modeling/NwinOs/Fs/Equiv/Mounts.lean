import NwinOs.Fs.Vfs
import NwinOs.Overlay

/-!
# What mounting does to path resolution

The resolver rebuilds the path from the components it has come through, and asks the mount table for
it. So the table is an overlay on the tree of nodes (`MountTable.cover`), and `resolvePath` is a
walk with it (`resolvePath_eq_walk`).  A key of the table is found only if it is spelled the way the
resolver spells paths: one slash before each component and none at the end (`Canonical`).  Distinct
lists of components are distinct paths (`components_pathKey`), so a mount is found at its own place
and nowhere else. -/

namespace NwinOs.Fs

open Overlay Std.ExtTreeMap List Option MountTable

/-! ### Paths and their components -/

/-- The path that the resolver rebuilds from the components it has come through. -/
def pathKey (parts : List String) : String := parts.foldl (fun path part => path ++ "/" ++ part) ""

/-- Paths in the resolver's own spelling, and the root. -/
def Canonical (p : String) : Prop :=
  p = "/" ∨ components p '/' ≠ [] ∧ p = pathKey (components p '/')

theorem pathKey_snoc (parts : List String) (part : String) :
    pathKey (parts ++ [part]) = pathKey parts ++ "/" ++ part := by
  rw [pathKey, foldl_append]
  rfl

theorem pathKey_append (parts parts' : List String) :
    pathKey (parts ++ parts') = pathKey parts ++ pathKey parts' := by
  induction parts' using List.reverseRecOn with
  | nil =>
    rw [append_nil]
    exact String.append_empty.symm
  | append_singleton parts' part ih =>
    rw [← append_assoc, pathKey_snoc, pathKey_snoc, ih, String.append_assoc, String.append_assoc,
      String.append_assoc]

/-- **A path has the components it was built from.** -/
theorem components_pathKey {parts : List String} (h : ∀ part ∈ parts, IsComponent '/' part) :
    components (pathKey parts) '/' = parts := by
  induction parts using List.reverseRecOn with
  | nil => rfl
  | append_singleton parts part ih =>
    have hpart : IsComponent '/' part := h part (mem_append_right _ (mem_singleton_self _))
    rw [pathKey_snoc, components_append rfl, components_of_isComponent hpart,
      ih fun other hother => h other (mem_append_left _ hother)]

theorem eq_pathKey_iff {p : String} {parts : List String}
    (h : ∀ part ∈ parts, IsComponent '/' part) :
    p = pathKey parts ↔ components p '/' = parts ∧ p = pathKey (components p '/') := by
  constructor
  · rintro rfl
    rw [components_pathKey h]
    exact ⟨rfl, rfl⟩
  · rintro ⟨rfl, hp⟩
    exact hp

/-! ### The mount table as an overlay -/

section

variable {N : Type} {mounts : MountTable N} {vfsRoot current node : N} {p : String}
  {parts place : List String}

namespace MountTable

variable (mounts)

/-- The mount table by lists of components. -/
def cover : Cover String N := fun parts => mounts.getMount (pathKey parts)

/-- Where resolution starts. -/
def root (vfsRoot : N) : N := (mounts.getMount "/").getD vfsRoot

theorem getMount_mount (p key : String) (node : N) :
    (mounts.mount p node).getMount key = if p = key then some node else mounts.getMount key := by
  unfold getMount mount
  rw [Std.ExtTreeMap.getElem?_insert]
  simp only [Std.LawfulEqCmp.compare_eq_iff_eq]

variable {mounts}

theorem cover_mount (hparts : ∀ part ∈ parts, IsComponent '/' part) :
    (mounts.mount p node).cover parts =
      if components p '/' = parts ∧ p = pathKey (components p '/') then some node
      else mounts.cover parts := by
  unfold cover
  rw [getMount_mount]
  simp only [eq_pathKey_iff hparts]

theorem root_mount_of_ne (hp : p ≠ "/") :
    (mounts.mount p node).root vfsRoot = mounts.root vfsRoot := by
  rw [root, root, getMount_mount, if_neg hp]

theorem root_mount_self : (mounts.mount "/" node).root vfsRoot = node := by
  rw [root, getMount_mount, if_pos rfl, getD_some]

theorem unmount_mount (hp : mounts.getMount p = none) :
    (mounts.mount p node).unmount p = (mounts, true) := by
  unfold unmount mount
  rw [getElem?_insert_self, isSome_some, Prod.mk.injEq]
  refine ⟨?_, rfl⟩
  ext key : 1
  rw [getElem?_erase, Std.ExtTreeMap.getElem?_insert]
  split_ifs with hkey
  · rw [Std.LawfulEqCmp.compare_eq_iff_eq] at hkey
    exact (hkey ▸ hp).symm
  · rfl

end MountTable

/-! ### The part of the table below a path -/

/-- What follows `p` in a key below it: a slash and a name at least. -/
def keyBelow (p key : String) : Option String :=
  match key.toList.dropPrefix? p.toList with
  | some ('/' :: c :: cs) => some (.ofList ('/' :: c :: cs))
  | _ => none

theorem keyBelow_eq_some_iff {key k : String} :
    keyBelow p key = some k ↔ key = p ++ k ∧ ∃ c cs, k.toList = '/' :: c :: cs := by
  have hdrop : ∀ rest, key.toList.dropPrefix? p.toList = some rest ↔
    key.toList = p.toList ++ rest := by
    intro rest
    rw [dropPrefix?_eq_some_iff]
    simp only [beq_iff_eq, exists_eq_right]
  rw [← String.toList_inj, String.toList_append, ← hdrop]
  unfold keyBelow
  split
  · rename_i c cs heq
    rw [heq, Option.some.injEq, Option.some.injEq, ← String.toList_inj, String.toList_ofList]
    constructor
    · intro h
      exact ⟨h, c, cs, h.symm⟩
    · exact fun h => h.1
  · rename_i hne
    refine ⟨fun h => (nomatch h), ?_⟩
    rintro ⟨h, c, cs, hk⟩
    exact absurd (hk ▸ h) (hne c cs)

namespace MountTable

/-- The mounts below `p`, by their paths from there. -/
def below (mounts : MountTable N) (p : String) : MountTable N :=
  .ofList (mounts.toList.filterMap fun entry => (keyBelow p entry.1).map fun key => (key, entry.2))

variable {key : String}

theorem getElem?_ofList_eq_some_iff {entries : List (String × N)}
    (hdistinct : entries.Pairwise fun a b => ¬ compare a.1 b.1 = .eq) :
    (Std.ExtTreeMap.ofList entries)[key]? = some node ↔ (key, node) ∈ entries := by
  have hmem : ∀ {v}, (key, v) ∈ entries → (Std.ExtTreeMap.ofList entries)[key]? = some v :=
    fun hv => getElem?_ofList_of_mem Std.ReflCmp.compare_self hdistinct hv
  constructor
  · intro hnode
    by_cases hkey : key ∈ entries.map Prod.fst
    · obtain ⟨⟨_, v⟩, hv, rfl⟩ := mem_map.mp hkey
      cases (hmem hv).symm.trans hnode
      exact hv
    · rw [getElem?_ofList_of_contains_eq_false (by simpa using hkey)] at hnode
      cases hnode
  · exact hmem

theorem mem_entries_below : (key, node) ∈ mounts.toList.filterMap
        (fun entry => (keyBelow p entry.1).map fun key => (key, entry.2)) ↔
      mounts.getMount (p ++ key) = some node ∧ ∃ c cs, key.toList = '/' :: c :: cs := by
  rw [mem_filterMap]
  constructor
  · rintro ⟨⟨full, v⟩, hv, hkey⟩
    obtain ⟨k, hk, heq⟩ := map_eq_some_iff.mp hkey
    cases heq
    obtain ⟨rfl, hshape⟩ := keyBelow_eq_some_iff.mp hk
    exact ⟨mem_toList_iff_getElem?_eq_some.mp hv, hshape⟩
  · rintro ⟨hnode, hshape⟩
    refine ⟨(p ++ key, node), mem_toList_iff_getElem?_eq_some.mpr hnode, ?_⟩
    rw [keyBelow_eq_some_iff.mpr ⟨rfl, hshape⟩, map_some]

/-- **The table below a path.** -/
theorem getMount_below_eq_some_iff : (mounts.below p).getMount key = some node ↔
      mounts.getMount (p ++ key) = some node ∧ ∃ c cs, key.toList = '/' :: c :: cs := by
  refine (getElem?_ofList_eq_some_iff ?_).trans mem_entries_below
  -- two keys below `p` that are the same follow `p` in the same key
  refine List.Pairwise.filterMap _ (fun a b hab k hk k' hk' => ?_) distinct_keys_toList
  obtain ⟨key₁, hkey₁, heq₁⟩ := map_eq_some_iff.mp hk
  obtain ⟨key₂, hkey₂, heq₂⟩ := map_eq_some_iff.mp hk'
  cases heq₁
  cases heq₂
  rw [Std.LawfulEqCmp.compare_eq_iff_eq] at hab ⊢
  rintro (rfl : key₁ = key₂)
  exact hab ((keyBelow_eq_some_iff.mp hkey₁).1.trans (keyBelow_eq_some_iff.mp hkey₂).1.symm)

theorem root_below : (mounts.below p).root vfsRoot = vfsRoot := by
  have hnone : (mounts.below p).getMount "/" = none := by
    rw [eq_none_iff_forall_ne_some]
    intro v hv
    obtain ⟨-, c, cs, hshape⟩ := getMount_below_eq_some_iff.mp hv
    cases hshape
  rw [root, hnone, getD_none]

theorem cover_below (hne : parts ≠ []) (hparts : ∀ part ∈ parts, IsComponent '/' part) :
    (mounts.below (pathKey place)).cover parts = Tree.below mounts.cover place parts := by
  have hshape : ∃ c cs, (pathKey parts).toList = '/' :: c :: cs := by
    obtain ⟨part, rest, rfl⟩ := exists_cons_of_ne_nil hne
    obtain ⟨c, cs, hpart⟩ := exists_cons_of_ne_nil (hparts part mem_cons_self).1
    refine ⟨c, cs ++ (pathKey rest).toList, ?_⟩
    rw [← singleton_append, pathKey_append, String.toList_append]
    change (("" ++ "/" ++ part : String)).toList ++ _ = _
    rw [String.toList_append, hpart]
    rfl
  apply Option.ext
  intro v
  change (mounts.below (pathKey place)).getMount (pathKey parts) = some v ↔
    mounts.getMount (pathKey (place ++ parts)) = some v
  rw [getMount_below_eq_some_iff, pathKey_append]
  exact and_iff_left hshape

end MountTable

/-! ### Resolution is a walk -/

variable [VNode N]

/-- The nodes as a tree. -/
def vnodeTree (N : Type) [VNode N] : Tree String N := ⟨VNode.isDir, VNode.lookup⟩

theorem resolveParts_eq_walk : resolveParts mounts parts current (pathKey place) =
    (vnodeTree N).walk mounts.cover place parts current := by
  induction parts generalizing current place with
  | nil => rfl
  | cons part parts ih =>
    have hmount : mounts.cover (place ++ [part]) = mounts[pathKey place ++ "/" ++ part]? :=
      congrArg mounts.getMount (pathKey_snoc place part)
    rw [resolveParts, Tree.walk, hmount]
    cases hdir : VNode.isDir current with
    | false => simp [vnodeTree, hdir]
    | true =>
      rw [if_neg (by decide), if_pos (show (vnodeTree N).isDir current = true from hdir)]
      dsimp only
      rw [← pathKey_snoc]
      cases mounts[pathKey (place ++ [part])]? with
      | some mountedNode => exact ih
      | none =>
        cases hchild : VNode.lookup current part with
        | none => simp [vnodeTree, hchild]
        | some nextNode =>
          simp only [vnodeTree, hchild, none_or, bind_some]
          exact ih

/-- **Resolution is a walk with the mount table as overlay.** -/
theorem resolvePath_eq_walk (mounts : MountTable N) (vfsRoot : N) (path : String) :
    resolvePath mounts vfsRoot path =
      (vnodeTree N).walk mounts.cover [] (components path '/') (mounts.root vfsRoot) :=
  @resolveParts_eq_walk N mounts (mounts.root vfsRoot) (components path '/') [] _

theorem walk_mount (hp : p = pathKey (components p '/'))
    (hparts : ∀ part ∈ parts, IsComponent '/' part) :
    (vnodeTree N).walk (mounts.mount p node).cover [] parts current =
      (vnodeTree N).walk (Tree.put mounts.cover (components p '/') node) [] parts current := by
  apply Tree.walk_congr
  intro s _ hs
  rw [nil_append, cover_mount fun part hpart => hparts part (hs.subset hpart),
    Tree.put, Function.update_apply]
  by_cases heq : components p '/' = s
  · rw [if_pos ⟨heq, hp⟩, if_pos heq.symm]
  · rw [if_neg fun h => heq h.1, if_neg (Ne.symm heq)]

/-! ### Where a mount is visible -/

theorem resolvePath_mount_self (hne : components p '/' ≠ []) (hp : p = pathKey (components p '/')) :
    resolvePath (mounts.mount p node) vfsRoot p = some node ↔
      ∃ dir, (vnodeTree N).Leads mounts.cover []
        (components p '/').dropLast (mounts.root vfsRoot) dir ∧
        VNode.isDir dir = true := by
  have hroot : p ≠ "/" := by
    rintro rfl
    exact hne rfl
  have hsplit := (dropLast_append_getLast hne).symm
  rw [resolvePath_eq_walk, walk_mount hp fun _ => mem_components, root_mount_of_ne hroot]
  generalize (components p '/').dropLast = parents at hsplit ⊢
  rw [hsplit, Tree.walk_put_self]
  simp only [Tree.walk_eq_some_iff]
  rfl

/-- **Where a mount is visible.**  After a mount at a canonical path `p`, resolving `p` gives the
mounted node iff `p` is the root or the components above its last one lead to a directory.  The tree
need not have an entry for `p` itself. -/
theorem mount_visible_iff (mounts : MountTable N) (vfsRoot node : N) {p : String}
    (hp : Canonical p) :
    resolvePath (mounts.mount p node) vfsRoot p = some node ↔
      p = "/" ∨ ∃ dir, (vnodeTree N).Leads mounts.cover [] (components p '/').dropLast
        (mounts.root vfsRoot) dir ∧ VNode.isDir dir = true := by
  rcases hp with rfl | ⟨hne, hkey⟩
  · rw [resolvePath_eq_walk, MountTable.root_mount_self]
    exact ⟨fun _ => .inl rfl, fun _ => rfl⟩
  · have hroot : p ≠ "/" := by
      rintro rfl
      exact hne rfl
    rw [resolvePath_mount_self hne hkey, or_iff_right hroot]

/-- **A mount at any other spelling is never found**: every path resolves as it did without it. -/
theorem resolvePath_mount_of_not_canonical (mounts : MountTable N) (vfsRoot node : N)
    (hp : ¬ Canonical p) (q : String) :
    resolvePath (mounts.mount p node) vfsRoot q = resolvePath mounts vfsRoot q := by
  rw [Canonical, not_or] at hp
  rw [resolvePath_eq_walk, resolvePath_eq_walk, root_mount_of_ne hp.1]
  apply Tree.walk_congr
  intro s hne hs
  rw [nil_append, cover_mount fun part hpart => mem_components (hs.subset hpart), if_neg]
  rintro ⟨rfl, hkey⟩
  exact hp.2 ⟨hne, hkey⟩

/-- An empty directory. -/
def emptyDir : InitramfsNode := .dir .new

theorem getMount_new {N : Type} (key : String) : (new : MountTable N).getMount key = none :=
  getElem?_empty

theorem resolvePath_emptyDir {part : String} {node : InitramfsNode}
    (hroot : p ≠ "/") (hp : p ≠ pathKey [part]) {path : String}
    (hpath : components path '/' = part :: parts) :
    resolvePath (new.mount p node) emptyDir path = none := by
  have hstart : (new : MountTable InitramfsNode).root emptyDir = emptyDir := by
    rw [root, getMount_new, getD_none]
  have hcover : (new.mount p node).cover ([] ++ [part]) = none := by
    rw [cover, getMount_mount, nil_append, if_neg hp, getMount_new]
  have hlookup : (vnodeTree InitramfsNode).child emptyDir part = none := by
    change ((DirVNode.new : DirVNode TarVNode).children[part]?).map InitramfsNode.tar = none
    rw [DirVNode.new, getElem?_empty, map_none]
  rw [resolvePath_eq_walk, root_mount_of_ne hroot, hstart, hpath, Tree.walk, hcover,
    hlookup, or_none, bind_none, ite_self]

/-- A mount in a directory that does not exist is not found, and neither is one with a slash at the
end. -/
theorem mount_not_visible :
    resolvePath (MountTable.new.mount "/mnt/disk" emptyDir) emptyDir "/mnt/disk" ≠ some emptyDir ∧
      resolvePath (MountTable.new.mount "/mnt/" emptyDir) emptyDir "/mnt/" ≠ some emptyDir := by
  have hdisk : components "/mnt/disk" '/' = ["mnt", "disk"] := by decide +kernel
  have hmnt : components "/mnt/" '/' = ["mnt"] := by decide +kernel
  rw [resolvePath_emptyDir (by decide) (by decide +kernel) hdisk,
    resolvePath_emptyDir (by decide) (by decide +kernel) hmnt]
  exact ⟨fun h => (nomatch h), fun h => (nomatch h)⟩

theorem resolvePath_mount_slash : ¬ Canonical "/mnt/" ∧ ∀ q,
    resolvePath (new.mount "/mnt/" emptyDir) emptyDir q
      = resolvePath new emptyDir q := by
  have hp : ¬ Canonical "/mnt/" := by
    rintro (h | ⟨-, h⟩)
    · exact absurd h (by decide)
    · exact absurd h (by decide +kernel)
  exact ⟨hp, resolvePath_mount_of_not_canonical _ _ _ hp⟩

theorem canonical_mnt : components "/mnt" '/' ≠ [] ∧ "/mnt" = pathKey (components "/mnt" '/') := by
  exact ⟨cons_ne_nil _ _, by decide +kernel⟩

/-- A root directory with one file, and two volumes of one file each. -/
def sampleRoot : InitramfsNode := .dir (DirVNode.new.add "init" ⟨[1, 2]⟩)

def sampleVolume : InitramfsNode := .dir (DirVNode.new.add "readme" ⟨[3]⟩)

/-- A directory with one file. -/
def sampleDisk : InitramfsNode := .dir (DirVNode.new.add "data" ⟨[4, 5]⟩)

/-- The disk is found in the volume that is mounted above it. -/
theorem mount_visible_disk :
    resolvePath ((MountTable.new.mount "/mnt" sampleVolume).mount "/mnt/disk" sampleDisk) sampleRoot
      "/mnt/disk" = some sampleDisk := by
  have hdisk : components "/mnt/disk" '/' = ["mnt", "disk"] := by decide +kernel
  refine (mount_visible_iff _ _ _ (.inr ⟨?_, by decide +kernel⟩)).mpr (.inr ⟨sampleVolume, ?_, rfl⟩)
  · rw [hdisk]
    exact cons_ne_nil _ _
  · rw [hdisk, MountTable.root_mount_of_ne (by decide), MountTable.root, getMount_new, getD_none]
    refine .crossed rfl ?_ .here
    rw [MountTable.cover, MountTable.getMount_mount, if_pos (by decide +kernel)]

/-! ### What a mount changes -/

/-- **Mounting changes its subtree only, and unmounting undoes it.**  Paths that do not go through
`p` resolve as before; paths through it resolve from the mounted node with the mounts below `p`, if
`p` itself resolves to that node; and after the unmount all paths resolve as before.  Resolution
depends on the components of a path only. -/
theorem mount_changes_subtree (mounts : MountTable N) (vfsRoot node : N) {p : String}
    (hp : Canonical p) (hroot : p ≠ "/") (hnew : mounts.getMount p = none) :
    (∀ q, ¬ components p '/' <+: components q '/' →
      resolvePath (mounts.mount p node) vfsRoot q = resolvePath mounts vfsRoot q) ∧
    (resolvePath (mounts.mount p node) vfsRoot p = some node →
      ∀ q r, components q '/' = components p '/' ++ components r '/' →
        resolvePath (mounts.mount p node) vfsRoot q = resolvePath (mounts.below p) node r) ∧
    (((mounts.mount p node).unmount p).2 = true ∧
      ∀ q, resolvePath ((mounts.mount p node).unmount p).1 vfsRoot q
        = resolvePath mounts vfsRoot q) ∧
    ∀ (table : MountTable N) (q q' : String), components q '/' = components q' '/' →
      resolvePath table vfsRoot q = resolvePath table vfsRoot q' := by
  obtain ⟨-, hkey⟩ := hp.resolve_left hroot
  refine ⟨fun q hq => ?_, fun hself q r hqr => ?_, ?_, fun table q q' hqq' => ?_⟩
  · rw [resolvePath_eq_walk, resolvePath_eq_walk, walk_mount hkey fun _ => mem_components,
      MountTable.root_mount_of_ne hroot, Tree.walk_put_of_not_isPrefix hq]
  · rw [resolvePath_eq_walk, walk_mount hkey fun _ => mem_components] at hself ⊢
    rw [hqr, Tree.walk_put_append hself, resolvePath_eq_walk, MountTable.root_below]
    apply Tree.walk_congr
    intro s hs hpre
    have hbelow := @MountTable.cover_below N mounts s (components p '/') hs
      fun part hpart => mem_components (hpre.subset hpart)
    rw [List.nil_append, ← hbelow, ← hkey]
  · rw [MountTable.unmount_mount hnew]
    exact ⟨rfl, fun q => rfl⟩
  · rw [resolvePath_eq_walk, resolvePath_eq_walk, hqq']

/-- With a disk already mounted at `/mnt/disk`, a mount at `/mnt` leaves the file of the root
directory as it is, and paths below it lead to the volume's file and to the disk's. -/
theorem mount_changes_subtree_mnt :
    let mounts := MountTable.new.mount "/mnt/disk" sampleDisk
    let mounted := mounts.mount "/mnt" sampleVolume
    (resolvePath mounted sampleRoot "/init" = resolvePath mounts sampleRoot "/init" ∧
      (resolvePath mounts sampleRoot "/init").map (VNode.read · 0 2) = some [1, 2]) ∧
    (resolvePath mounted sampleRoot "//mnt/disk/data" =
        resolvePath (mounts.below "/mnt") sampleVolume "disk/data" ∧
      (resolvePath mounted sampleRoot "//mnt/disk/data").map (VNode.read · 0 2) = some [4, 5]) ∧
    (resolvePath mounted sampleRoot "/mnt/readme").map (VNode.read · 0 2) = some [3] ∧
    resolvePath (mounted.unmount "/mnt").1 sampleRoot "/mnt/readme" =
      resolvePath mounts sampleRoot "/mnt/readme" := by
  intro mounts mounted
  have hnew : mounts.getMount "/mnt" = none := by
    rw [MountTable.getMount_mount, if_neg (by decide), getMount_new]
  obtain ⟨hother, hbelow, ⟨-, hundone⟩, -⟩ := mount_changes_subtree mounts sampleRoot sampleVolume
    (.inr canonical_mnt) (by decide) hnew
  have hself : resolvePath mounted sampleRoot "/mnt" = some sampleVolume := by
    refine (resolvePath_mount_self canonical_mnt.1 canonical_mnt.2).mpr ⟨sampleRoot, ?_, rfl⟩
    rw [MountTable.root_mount_of_ne (by decide), MountTable.root, getMount_new, getD_none]
    exact .here
  exact ⟨⟨hother _ (by decide +kernel), by decide +kernel⟩,
    ⟨hbelow hself _ _ (by decide +kernel), by decide +kernel⟩, by decide +kernel, hundone _⟩

end

end NwinOs.Fs
