import Mathlib
import LargeObjects.Proofs.Surveying
import LargeObjects.Proofs.Lengths

/-! Where the files of a database sit: flat ones in the directory that the database is in, the others
further down in its tree. Every name that a database makes up leads to a seat. -/
namespace LargeObjects

open Disk

namespace Path

variable {p q top : Path} {t : Name}

/-- What starts like a path with a name behind it, and goes further than the path, has a name behind it
too, or ends in a separator. -/
theorem exists_join_of_longer (htop : top.spelling ≠ []) (ht : IsName t)
    (hgoes : p.spelling <+: (top.join t).spelling) (hlonger : top.spelling.length < p.spelling.length) :
    p.spelling.getLast? = some '/' ∨ ∃ u, p = top.join u ∧ '/' ∉ u := by
  have hhead : ∀ u : Name, '/' ∉ u → u.head? ≠ some '/' := fun u hu h => hu (List.mem_of_mem_head? h)
  obtain ⟨more, hmore⟩ := List.prefix_of_prefix_length_le (Naming.prefix_join top ht.no_separator) hgoes
    hlonger.le
  have hne : more ≠ [] := by
    rintro rfl
    rw [List.append_nil] at hmore
    rw [hmore] at hlonger
    exact absurd hlonger (Nat.lt_irrefl _)
  rw [← hmore] at hgoes
  have hsep : ∀ u : Name, u <+: t → '/' ∉ u := fun u hu hmem => ht.no_separator (hu.subset hmem)
  by_cases hend : top.spelling.getLast? = some '/'
  · have hjoin : ∀ u : Name, '/' ∉ u → (top.join u).spelling = top.spelling ++ u := by
      intro u hu
      rw [join, if_neg (hhead u hu), if_pos (Or.inr hend)]
    rw [hjoin t ht.no_separator, List.prefix_append_right_inj] at hgoes
    have hmore' := hsep more hgoes
    refine Or.inr ⟨more, congrArg Path.mk ?_, hmore'⟩
    rw [← hmore]
    exact (hjoin more hmore').symm
  · have hjoin : ∀ u : Name, '/' ∉ u → (top.join u).spelling = top.spelling ++ '/' :: u := by
      intro u hu
      rw [join, if_neg (hhead u hu), if_neg (not_or.2 ⟨htop, hend⟩)]
    rw [hjoin t ht.no_separator, List.prefix_append_right_inj] at hgoes
    obtain ⟨c, u, rfl⟩ := List.exists_cons_of_ne_nil hne
    obtain ⟨rfl, hu⟩ := List.cons_prefix_cons.1 hgoes
    rcases List.eq_nil_or_concat' u with rfl | ⟨init, last, rfl⟩
    · left
      rw [← hmore, List.getLast?_concat]
    · have hu' := hsep _ hu
      refine Or.inr ⟨init ++ [last], congrArg Path.mk ?_, hu'⟩
      rw [← hmore]
      exact (hjoin _ hu').symm

/-- Going up from a name in a directory makes no path longer than that of the directory. -/
theorem parent?_join_prefix (htop : top.spelling ≠ []) (ht : IsName t)
    (hdots : .parent ∉ (top.join t).components) (hends : (top.join t).EndsInName)
    (hparent : (top.join t).parent? = some q) : q.spelling <+: top.spelling := by
  have hgoes := parent?_prefix hparent
  have htop' := Naming.prefix_join top ht.no_separator
  refine List.prefix_of_prefix_length_le hgoes htop' (Nat.le_of_not_lt fun hlonger => ?_)
  obtain ⟨q', hq', hshape⟩ := parent?_of_endsInName hends hdots
  obtain rfl : q' = q := Option.some.inj (hq'.symm.trans hparent)
  have hpos := List.length_pos_iff.2 htop
  rcases hshape with ⟨front, u, hpieces, hu⟩ | ⟨-, hshort⟩
  · rcases exists_join_of_longer htop ht hgoes hlonger with hsep | ⟨v, rfl, hsep⟩
    · -- After a separator there is no name.
      obtain ⟨xs, hxs⟩ := List.getLast?_eq_some_iff.1 hsep
      have hend := congrArg List.getLast? hpieces
      rw [pieces, hxs, List.splitOn_append_cons_self, List.getLast?_concat, List.splitOn_nil,
        List.getLast?_append, List.getLast?_singleton, Option.some_or, Option.some.injEq] at hend
      exact hu.ne_nil hend.symm
    · -- The path would lead further down than the directory.
      obtain ⟨above, habove, -, hsteps⟩ := exists_parent_join ht htop
      obtain rfl : above = top.join v := Option.some.inj (habove.symm.trans hparent)
      have hlast : v = u := by
        have hend := congrArg List.getLast? hpieces
        rw [List.getLast?_concat, getLast?_pieces_join top hsep] at hend
        exact Option.some.inj hend
      rw [hlast, components_join top hu] at hsteps
      exact List.cons_ne_nil _ _ (List.append_right_eq_self.1 hsteps)
  · omega

end Path

namespace Naming

structure Sited (n : Naming) (g : Ground) (title : Name) : Prop where
  base_eq : n.base = g.top.join title
  isName : IsName title

structure On (n : Naming) (g : Ground) (title : Name) : Prop extends Sited n g title where
  objection (layout : Layout) (owner : Owner) (id : ObjectId) : objection? (n.path layout owner id) = none
  short (layout : Layout) (owner : Owner) (id : ObjectId) {t : Name} :
    .name t ∈ (n.path layout owner id).components → byteCount t ≤ nameLimit

def lane (n : Naming) (title : Name) (id : ObjectId) : List Name :=
  (title ++ directorySuffix.toList) ::
    (digits n.fanout.toNat (id.word.toNat / n.fanout.toNat)).map directoryName

theorem isName_append {t suffix : List Char} (ht : '/' ∉ t) (hs : '/' ∉ suffix) (hl : 2 < suffix.length) :
    IsName (t ++ suffix) := by
  apply IsName.of_length
  · rw [List.length_append]
    omega
  · rw [List.mem_append, not_or]
    exact ⟨ht, hs⟩

theorem not_directory_of_object (text : List Char) :
    ¬directorySuffix.toList <:+ text ++ objectSuffix.toList := by
  intro h
  have hobject : objectSuffix.toList <:+ directorySuffix.toList :=
    List.suffix_of_suffix_length_le (List.suffix_append text _) h (by decide)
  revert hobject
  decide

theorem not_directory_of_flatTemp (text : List Char) :
    ¬directorySuffix.toList <:+ text ++ flatTempSuffix.toList := by
  intro h
  have htemp : directorySuffix.toList <:+ flatTempSuffix.toList :=
    List.suffix_of_suffix_length_le h (List.suffix_append text _) (by decide)
  revert htemp
  decide

theorem not_directory_flatEnding (text : List Char) (owner : Owner) (id : ObjectId) :
    ¬directorySuffix.toList <:+ text ++ flatEnding owner id := by
  cases owner with
  | temp =>
    have hnot := not_directory_of_flatTemp (text ++ '.' :: Numeral.write id.word.toNat)
    rwa [List.append_assoc] at hnot
  | table t =>
    have hnot := not_directory_of_object
      (text ++ '.' :: Numeral.write t.word.toNat ++ '.' :: Numeral.write id.word.toNat)
    simp only [flatEnding]
    simpa only [List.append_assoc, List.cons_append] using hnot

variable {n : Naming} {g : Ground} {title : Name} {id : ObjectId} {owner : Owner}

theorem byteCount_lane {t : Name} (ht : t ∈ n.lane title id) :
    byteCount t ≤ byteCount title + 18 := by
  rcases List.mem_cons.1 ht with rfl | ht
  · rw [byteCount_append]
    exact Nat.add_le_add_left (by decide) _
  · obtain ⟨digit, hdigit, rfl⟩ := List.mem_map.1 ht
    have hlt := (digitsWithin_lt _ 32 _ ((Nat.div_le_self _ _).trans_lt id.word.toNat_lt)).2 digit hdigit
    exact (brief_directoryName hlt).short.trans (Nat.le_add_left _ _)

namespace Sited

theorem shardRoot_eq (h : n.Sited g title) : n.shardRoot = g.path [title ++ directorySuffix.toList] := by
  unfold shardRoot
  rw [h.base_eq, append_join h.isName.ne_nil h.isName.no_separator]
  rfl

theorem shardDirectory_eq (h : n.Sited g title) (id : ObjectId) :
    n.shardDirectory id = g.path (n.lane title id) := by
  show _ = g.path ([title ++ directorySuffix.toList] ++ List.map directoryName _)
  rw [Ground.path_append, List.foldl_map, ← h.shardRoot_eq]
  rfl

theorem isName_lane (h : n.Sited g title) {t : Name} (ht : t ∈ n.lane title id) :
    IsName t ∧ directorySuffix.toList <:+ t := by
  rcases List.mem_cons.1 ht with rfl | ht
  · exact ⟨isName_append h.isName.no_separator (by decide) (by decide), List.suffix_append _ _⟩
  · obtain ⟨digit, -, rfl⟩ := List.mem_map.1 ht
    exact ⟨isName_directoryName digit, List.suffix_append _ _⟩

/-- The names that lead to a file, none much longer than that of the database. -/
theorem path_eq (h : n.Sited g title) (layout : Layout) (owner : Owner) (id : ObjectId) :
    ∃ inner last, n.path layout owner id = g.path (inner ++ [last]) ∧
      (∀ t ∈ inner, IsName t ∧ directorySuffix.toList <:+ t) ∧ IsName last ∧
      ¬directorySuffix.toList <:+ last ∧ ∀ t ∈ inner ++ [last], byteCount t ≤ byteCount title + 37 := by
  cases layout with
  | flat =>
    have hflat : n.flatPath owner id = g.path ([] ++ [title ++ flatEnding owner id]) := by
      unfold flatPath
      rw [h.base_eq, append_join h.isName.ne_nil h.isName.no_separator]
      rfl
    refine ⟨[], _, hflat, nofun, isName_append h.isName.no_separator
      (separator_not_mem_flatEnding owner id) (length_flatEnding owner id),
      not_directory_flatEnding title owner id, fun t ht => ?_⟩
    rw [List.mem_singleton.1 ht, byteCount_append]
    exact Nat.add_le_add_left ((brief_flatEnding owner id).short.trans (by decide)) _
  | sharded =>
    have hlane : ∀ t ∈ n.lane title id, byteCount t ≤ byteCount title + 18 := fun t ht => byteCount_lane ht
    by_cases hslot : id.word % n.fanout = 0
    · -- The number names a directory, and the name of the file starts with that of the directory.
      obtain ⟨init, t, hsplit⟩ : ∃ init t, n.lane title id = init ++ [t] :=
        (List.eq_nil_or_concat' _).resolve_left (List.cons_ne_nil _ _)
      have hnames : ∀ u ∈ init ++ [t], IsName u ∧ directorySuffix.toList <:+ u :=
        fun u hu => h.isName_lane (hsplit ▸ hu)
      have hsizes : ∀ u ∈ init ++ [t], byteCount u ≤ byteCount title + 18 :=
        fun u hu => hlane u (hsplit ▸ hu)
      have ht := (hnames t (List.mem_append_right _ List.mem_cons_self)).1
      refine ⟨init, t ++ (ownerMark owner ++ objectSuffix.toList), ?_,
        fun u hu => hnames u (List.mem_append_left _ hu),
        isName_append ht.no_separator (separator_not_mem_ending owner) (length_ending owner), ?_,
        fun u hu => ?_⟩
      · show n.shardedPath owner id = _
        unfold shardedPath stem
        rw [if_pos hslot, h.shardDirectory_eq, hsplit, Ground.path_concat,
          append_join ht.ne_nil ht.no_separator, Ground.path_concat]
      · rw [← List.append_assoc]
        exact not_directory_of_object _
      · rcases List.mem_append.1 hu with hu | hu
        · exact (hsizes u (List.mem_append_left _ hu)).trans (by omega)
        · have hlast := hsizes t (List.mem_append_right _ List.mem_cons_self)
          have hending := (brief_ending owner).short
          rw [List.mem_singleton.1 hu, byteCount_append]
          omega
    · have hslash : '/' ∉ Numeral.write id.word.toNat := Numeral.not_mem_write (by decide)
      refine ⟨n.lane title id, fileName owner id, ?_, fun u hu => h.isName_lane hu,
        isName_fileName owner id, ?_, fun u hu => ?_⟩
      · show n.shardedPath owner id = _
        unfold shardedPath stem
        rw [if_neg hslot, append_join (Numeral.write_ne_nil _) hslash, h.shardDirectory_eq,
          Ground.path_concat]
        rfl
      · unfold fileName
        rw [← List.append_assoc]
        exact not_directory_of_object _
      · rcases List.mem_append.1 hu with hu | hu
        · exact (hlane u hu).trans (by omega)
        · rw [List.mem_singleton.1 hu]
          exact (brief_fileName owner id).short.trans (by omega)

/-- A database of no more than three thousand octets and a name of no more than two hundred is on its
ground whatever the fanout. -/
theorem on_of_brief (h : n.Sited g title) (hbase : Brief n.base.spelling 3000)
    (htitle : byteCount title ≤ 200) : n.On g title where
  toSited := h
  objection layout owner id := by
    exact objection?_eq_none.2 ((brief_path hbase layout owner id).mono (by decide))
  short layout owner id t ht := by
    obtain ⟨inner, last, hpath, hinner, hlast, -, hsizes⟩ := h.path_eq layout owner id
    have hnames : ∀ u ∈ inner ++ [last], IsName u := by
      intro u hu
      rcases List.mem_append.1 hu with hu | hu
      · exact (hinner u hu).1
      · rw [List.mem_singleton.1 hu]
        exact hlast
    rw [hpath, Ground.components_path hnames, g.name_mem_place] at ht
    rcases List.mem_append.1 ht with ht | ht
    · exact (g.usable t ht).short
    · have hlimit : nameLimit = 255 := rfl
      have hsize := hsizes t ht
      omega

end Sited

namespace On

/-- Directories of the tree, and then a name that no directory of a tree has, lead to a seat. -/
theorem seat_of_path (h : n.On g title) {layout : Layout} {inner : List Name} {last : Name}
    (hpath : n.path layout owner id = g.path (inner ++ [last]))
    (hinner : ∀ t ∈ inner, IsName t ∧ directorySuffix.toList <:+ t) (hlast : IsName last)
    (hfile : ¬directorySuffix.toList <:+ last) : g.Seat (g.names ++ (inner ++ [last])) := by
  have hnames : ∀ t ∈ inner ++ [last], IsName t := by
    intro t ht
    rcases List.mem_append.1 ht with ht | ht
    · exact (hinner t ht).1
    · rw [List.mem_singleton.1 ht]
      exact hlast
  have hshort : ∀ t ∈ inner ++ [last], byteCount t ≤ nameLimit := by
    intro t ht
    refine h.short layout owner id ?_
    rw [hpath, Ground.components_path hnames, g.name_mem_place]
    exact List.mem_append_right _ ht
  refine ⟨inner, last, rfl, fun t ht => ?_, ?_, hfile, hpath ▸ h.objection layout owner id⟩
  · have hmem : t ∈ inner ++ [last] := List.mem_append_left _ ht
    exact ⟨⟨hnames t hmem, hshort t hmem⟩, (hinner t ht).2⟩
  · have hmem : last ∈ inner ++ [last] := List.mem_append_right _ List.mem_cons_self
    exact ⟨hlast, hshort last hmem⟩

/-- Every path of the database leads to a seat. -/
theorem holds (h : n.On g title) (layout : Layout) (owner : Owner) (id : ObjectId) :
    g.Holds (n.path layout owner id) := by
  obtain ⟨inner, last, hpath, hinner, hlast, hfile, -⟩ := h.path_eq layout owner id
  have hseat := h.seat_of_path hpath hinner hlast hfile
  rw [hpath]
  exact ⟨_, hseat, hseat.spells⟩

/-- Its directory is spelled with what an object is spelled with. -/
theorem prefix_path (n : Naming) (owner : Owner) (id : ObjectId) :
    (n.shardDirectory id).spelling <+: (n.path .sharded owner id).spelling := by
  have hstem : (n.shardDirectory id).spelling <+: (n.stem id).spelling := by
    unfold stem
    split
    · exact List.prefix_refl _
    · exact prefix_join _ (Numeral.not_mem_write (by decide))
  exact hstem.trans (List.prefix_append _ _)

theorem short_lane (h : n.On g title) {t : Name} (ht : t ∈ n.lane title id) : byteCount t ≤ nameLimit := by
  by_cases hslot : id.word % n.fanout = 0
  · -- The last name is the start of that of the file.
    have hsteps := components_shardedPath_zero n .temp hslot
    have hlead := n.isName_lastPiece_shardDirectory id
    have hsteps' := Path.components_of_lastPiece hlead
    rw [h.shardDirectory_eq, Ground.components_path fun u hu => (h.isName_lane hu).1] at hsteps'
    have hmem : .name t ∈ g.place (g.names ++ n.lane title id) :=
      (g.name_mem_place).2 (List.mem_append_right _ ht)
    rw [hsteps', ← h.shardDirectory_eq] at hmem
    rcases List.mem_append.1 hmem with hmem | hmem
    · refine h.short .sharded .temp id ?_
      rw [show n.path .sharded .temp id = n.shardedPath .temp id from rfl, hsteps]
      exact List.mem_append_left _ hmem
    · rw [List.mem_singleton, Component.name.injEq] at hmem
      have hfile : .name ((n.shardDirectory id).lastPiece ++ (ownerMark .temp ++ objectSuffix.toList)) ∈
          (n.path .sharded .temp id).components := by
        rw [show n.path .sharded .temp id = n.shardedPath .temp id from rfl, hsteps]
        exact List.mem_append_right _ List.mem_cons_self
      rw [hmem]
      exact (byteCount_mono (List.prefix_append _ _)).trans (h.short .sharded .temp id hfile)
  · refine h.short .sharded .temp id ?_
    rw [show n.path .sharded .temp id = n.shardedPath .temp id from rfl,
      components_shardedPath n .temp hslot, h.shardDirectory_eq,
      Ground.components_path fun u hu => (h.isName_lane hu).1]
    refine List.mem_append_left _ ?_
    exact (g.name_mem_place).2 (List.mem_append_right _ ht)

/-- Every directory of its tree is on the way to some. -/
theorem way (h : n.On g title) (id : ObjectId) : g.Way (g.names ++ n.lane title id) := by
  refine Or.inr ⟨_, rfl, fun t ht => ?_, ?_⟩
  · obtain ⟨hname, hmarked⟩ := h.isName_lane ht
    exact ⟨⟨hname, h.short_lane ht⟩, hmarked⟩
  · rw [← h.shardDirectory_eq]
    exact objection?_of_prefix (prefix_path n .temp id) (h.objection .sharded .temp id)

/-- The directory of flat files leads to the ground, and is spelled no longer. -/
theorem flatDirectory_eq (h : n.On g title) : n.flatDirectory.components = g.place g.names ∧
    n.flatDirectory.spelling ≠ [] ∧ n.flatDirectory.spelling <+: g.top.spelling := by
  obtain ⟨above, hparent, hne, hsteps⟩ := Path.exists_parent_join h.isName g.stated
  have hdots : .parent ∉ (g.top.join title).components := by
    rw [Path.components_join _ h.isName, g.leads, List.mem_append, not_or]
    exact ⟨g.parent_not_mem_place g.names, by simp⟩
  have hends : (g.top.join title).EndsInName := by
    have hlast := Path.getLast?_pieces_join g.top h.isName.no_separator
    obtain ⟨front, hfront⟩ := List.getLast?_eq_some_iff.1 hlast
    exact ⟨front, title, hfront, h.isName⟩
  have hgoes := Path.parent?_join_prefix g.stated h.isName hdots hends hparent
  unfold flatDirectory
  rw [h.base_eq, hparent]
  dsimp only
  rw [if_neg hne]
  exact ⟨hsteps.trans g.leads, hne, hgoes⟩

end On

end Naming

namespace Path

/-- A name follows a path behind a separator, unless the path already ends in one. -/
theorem exists_spelling_join {p : Path} {t : Name} (hp : p.spelling ≠ []) (ht : IsName t) :
    ∃ sep : List Char, (sep = [] ∧ p.spelling.getLast? = some '/' ∨
      sep = ['/'] ∧ p.spelling.getLast? ≠ some '/') ∧ (p.join t).spelling = p.spelling ++ (sep ++ t) := by
  have hhead : t.head? ≠ some '/' := fun h => ht.no_separator (List.mem_of_mem_head? h)
  unfold join
  rw [if_neg hhead]
  by_cases hend : p.spelling.getLast? = some '/'
  · rw [if_pos (Or.inr hend)]
    exact ⟨[], Or.inl ⟨rfl, hend⟩, rfl⟩
  · rw [if_neg (not_or.2 ⟨hp, hend⟩)]
    exact ⟨['/'], Or.inr ⟨rfl, hend⟩, rfl⟩

/-- A name behind a path that goes less far is no longer. -/
theorem objection?_join_of_prefix {p top : Path} {t : Name} (hp : p.spelling ≠ [])
    (hgoes : p.spelling <+: top.spelling) (ht : IsName t) (h : objection? (top.join t) = none) :
    objection? (p.join t) = none := by
  obtain ⟨more, hmore⟩ := hgoes
  have htop : top.spelling ≠ [] := by
    rw [← hmore]
    exact List.append_ne_nil_of_left_ne_nil hp _
  obtain ⟨sep, hsep, hspelling⟩ := exists_spelling_join hp ht
  obtain ⟨sep', hsep', hspelling'⟩ := exists_spelling_join htop ht
  have hmem : '\x00' ∈ (p.join t).spelling → '\x00' ∈ (top.join t).spelling := by
    rw [hspelling, hspelling', ← hmore]
    simp only [List.mem_append]
    rcases hsep with ⟨rfl, -⟩ | ⟨rfl, -⟩
    · tauto
    · have hnot : '\x00' ∉ ['/'] := by decide
      tauto
  have hle : byteCount (p.join t).spelling ≤ byteCount (top.join t).spelling := by
    have hseparator : byteCount sep ≤ byteCount more + byteCount sep' := by
      rcases hsep with ⟨rfl, -⟩ | ⟨rfl, hopen⟩
      · exact Nat.zero_le _
      · rcases hsep' with ⟨-, hend⟩ | ⟨rfl, -⟩
        · -- Where only the longer one ends in a separator, it is longer by that at least.
          have hne : more ≠ [] := by
            rintro rfl
            rw [List.append_nil] at hmore
            exact hopen (hmore ▸ hend)
          exact (byteCount_pos hne).trans_le (Nat.le_add_right _ _)
        · exact Nat.le_add_left _ _
    rw [hspelling, hspelling', ← hmore]
    simp only [byteCount_append]
    omega
  rw [objection?_eq_none] at h ⊢
  exact ⟨fun hyes => h.clean (hmem hyes), hle.trans h.short⟩

end Path

end LargeObjects
