import Mathlib.Data.List.Basic
import PhasedTests.Files.Path

/-!
# Paths by their components

What becomes of the components of a path when another path is joined to it, a prefix is stripped
off it or its names alone are kept, and where components lead when no file is looked at.
-/

namespace PhasedTests.Path

/-! ## Segments -/

private theorem segments_ne_nil (path : List Char) : segments path ≠ [] := by
  cases path with
  | nil => exact List.cons_ne_nil _ _
  | cons c rest =>
    unfold segments
    split
    · exact List.cons_ne_nil _ _
    · split <;> exact List.cons_ne_nil _ _

private theorem exists_segments (path : List Char) :
    ∃ first others, segments path = first :: others :=
  List.exists_cons_of_ne_nil (segments_ne_nil path)

/-- A slash opens a segment, and any other character belongs to the first one. -/
theorem segments_cons {c : Char} {rest first : List Char} {others : List (List Char)}
    (hrest : segments rest = first :: others) :
    segments (c :: rest) = if c = '/' then [] :: first :: others else (c :: first) :: others := by
  rw [segments, hrest]

private theorem segments_append_slash (outer inner : List Char) :
    segments (outer ++ '/' :: inner) = segments outer ++ segments inner := by
  induction outer with
  | nil =>
    obtain ⟨first, others, hinner⟩ := exists_segments inner
    rw [List.nil_append, segments_cons hinner, if_pos rfl, hinner]
    rfl
  | cons c outer ih =>
    obtain ⟨first, others, houter⟩ := exists_segments outer
    rw [houter] at ih
    rw [List.cons_append, segments_cons ih, segments_cons houter]
    split <;> rfl

private theorem slash_not_mem_of_mem_segments {path segment : List Char}
    (hmem : segment ∈ segments path) : '/' ∉ segment := by
  induction path generalizing segment with
  | nil =>
    obtain rfl := List.mem_singleton.mp hmem
    exact List.not_mem_nil
  | cons c rest ih =>
    obtain ⟨first, others, hrest⟩ := exists_segments rest
    rw [hrest] at ih
    rw [segments_cons hrest] at hmem
    split at hmem
    · rcases List.mem_cons.mp hmem with rfl | hmem
      · exact List.not_mem_nil
      · exact ih hmem
    · rename_i hc
      rcases List.mem_cons.mp hmem with rfl | hmem
      · exact List.not_mem_cons_of_ne_of_not_mem (Ne.symm hc) (ih List.mem_cons_self)
      · exact ih (List.mem_cons_of_mem first hmem)

private theorem segments_of_slash_not_mem {segment : List Char} (hfree : '/' ∉ segment) :
    segments segment = [segment] := by
  induction segment with
  | nil => rfl
  | cons c rest ih =>
    rw [List.mem_cons, not_or] at hfree
    rw [segments_cons (ih hfree.2), if_neg (Ne.symm hfree.1)]

private theorem segments_ofSegments {parts : List (List Char)} (hne : parts ≠ [])
    (hfree : ∀ segment ∈ parts, '/' ∉ segment) : segments (ofSegments parts) = parts := by
  induction parts with
  | nil => exact absurd rfl hne
  | cons segment rest ih =>
    obtain ⟨hsegment, hrest⟩ := List.forall_mem_cons.mp hfree
    cases rest with
    | nil => exact segments_of_slash_not_mem hsegment
    | cons next rest =>
      rw [ofSegments, segments_append_slash, segments_of_slash_not_mem hsegment,
        ih (List.cons_ne_nil _ _) hrest]
      · rfl
      · exact nofun

/-! ## Components of segments -/

private theorem innerComponents_append (parts others : List (List Char)) :
    innerComponents (parts ++ others) = innerComponents parts ++ innerComponents others := by
  unfold innerComponents
  rw [List.filter_append, List.map_append]

/-- An empty segment or a dot is no component behind the first one. -/
theorem innerComponents_cons_of_idle {segment : List Char} (hidle : isIdle segment = true)
    (rest : List (List Char)) : innerComponents (segment :: rest) = innerComponents rest := by
  unfold innerComponents
  rw [List.filter_cons_of_neg (by rw [hidle]; decide)]

/-- Any other segment is a component. -/
theorem innerComponents_cons_of_not_idle {segment : List Char} (hidle : isIdle segment = false)
    (rest : List (List Char)) :
    innerComponents (segment :: rest) = innerComponent segment :: innerComponents rest := by
  unfold innerComponents
  rw [List.filter_cons_of_pos (by rw [hidle]; rfl), List.map_cons]

private theorem innerComponents_dropWhile (parts : List (List Char)) :
    innerComponents (parts.dropWhile isIdle) = innerComponents parts := by
  induction parts with
  | nil => rfl
  | cons segment rest ih =>
    by_cases hidle : isIdle segment = true
    · rw [List.dropWhile_cons_of_pos hidle, ih, innerComponents_cons_of_idle hidle]
    · rw [List.dropWhile_cons_of_neg hidle]

/-- Idle segments at the end have no components. -/
theorem innerComponents_trimEnd (parts : List (List Char)) :
    innerComponents (trimEnd parts) = innerComponents parts := by
  have hreverse (some : List (List Char)) :
      innerComponents some.reverse = (innerComponents some).reverse := by
    unfold innerComponents
    rw [List.filter_reverse, List.map_reverse]
  unfold trimEnd
  rw [hreverse, innerComponents_dropWhile, hreverse, List.reverse_reverse]

private theorem innerComponents_dropComponents (count : Nat) (parts : List (List Char)) :
    innerComponents (dropComponents count parts) = (innerComponents parts).drop count := by
  fun_induction dropComponents count parts with
  | case1 parts => rfl
  | case2 count => rfl
  | case3 count segment rest hidle ih => rw [ih, innerComponents_cons_of_idle hidle]
  | case4 count segment rest hidle ih =>
    rw [ih, innerComponents_cons_of_not_idle (by simpa using hidle),
      List.drop_succ_cons]

private theorem mem_of_mem_dropComponents {count : Nat} {parts : List (List Char)}
    {segment : List Char}
    (hmem : segment ∈ dropComponents count parts) : segment ∈ parts := by
  fun_induction dropComponents count parts with
  | case1 parts => exact hmem
  | case2 count => exact hmem
  | case3 count other rest hidle ih => exact List.mem_cons_of_mem other (ih hmem)
  | case4 count other rest hidle ih => exact List.mem_cons_of_mem other (ih hmem)

private theorem prefix_trimEnd (parts : List (List Char)) : trimEnd parts <+: parts := by
  have hsuffix := List.dropWhile_suffix isIdle (l := parts.reverse)
  rw [← List.reverse_prefix, List.reverse_reverse] at hsuffix
  exact hsuffix

/-- Components inside a path are names and steps to a parent. -/
theorem mem_innerComponents {parts : List (List Char)} {component : Component}
    (hmem : component ∈ innerComponents parts) :
    component = .parent ∨ ∃ segment ∈ parts, isIdle segment = false ∧ segment ≠ ['.', '.'] ∧
      component = .name segment := by
  obtain ⟨segment, hsegment, rfl⟩ := List.mem_map.mp hmem
  obtain ⟨hsegment, hidle⟩ := List.mem_filter.mp hsegment
  unfold innerComponent
  split
  · exact Or.inl rfl
  · rename_i hparent
    rw [Bool.not_eq_true'] at hidle
    exact Or.inr ⟨segment, hsegment, hidle, hparent, rfl⟩

/-! ## Components of paths -/

/-- What the first segment of a path means. -/
def headComponents (segment : List Char) : List Component :=
  if segment = [] then [.root] else if segment = ['.'] then [.current] else [innerComponent segment]

private theorem isIdle_eq_false_iff {segment : List Char} :
    isIdle segment = false ↔ segment ≠ [] ∧ segment ≠ ['.'] := by
  simp [isIdle]

/-- Only an empty path is a single empty segment. -/
theorem eq_nil_of_segments {path : List Char} (hpath : segments path = [[]]) : path = [] := by
  cases path with
  | nil => rfl
  | cons c rest =>
    obtain ⟨first, others, hrest⟩ := exists_segments rest
    rw [segments_cons hrest] at hpath
    split at hpath <;> cases hpath

/-- A path is empty, or it starts at the root or with a `.`, or its first segment has a meaning. -/
theorem splitLead_cases (path : List Char) :
    (path = [] ∧ splitLead path = ([], [])) ∨
    (∃ others, segments path = [] :: others ∧ splitLead path = ([.root], others)) ∨
    (∃ others, segments path = ['.'] :: others ∧ splitLead path = ([.current], others)) ∨
    ∃ first others, segments path = first :: others ∧ isIdle first = false ∧
      splitLead path = ([], first :: others) := by
  obtain ⟨first, others, hpath⟩ := exists_segments path
  unfold splitLead
  rw [hpath]
  by_cases hempty : first = []
  · subst hempty
    cases others with
    | nil => exact Or.inl ⟨eq_nil_of_segments hpath, rfl⟩
    | cons second others => exact Or.inr (Or.inl ⟨_, rfl, rfl⟩)
  · by_cases hdot : first = ['.']
    · subst hdot
      exact Or.inr (Or.inr (Or.inl ⟨others, rfl, rfl⟩))
    · refine Or.inr (Or.inr (Or.inr ⟨first, others, rfl, ?_, ?_⟩))
      · exact isIdle_eq_false_iff.mpr ⟨hempty, hdot⟩
      · split <;> simp_all

private theorem components_eq (path : List Char) :
    components path = (splitLead path).1 ++ innerComponents (splitLead path).2 :=
  rfl

private theorem components_of_segments {path first : List Char} {others : List (List Char)}
    (hne : path ≠ []) (hpath : segments path = first :: others) :
    components path = headComponents first ++ innerComponents others := by
  rw [components_eq]
  rcases splitLead_cases path with ⟨hempty, -⟩ | ⟨later, hsame, hlead⟩ | ⟨later, hsame, hlead⟩ |
    ⟨second, later, hsame, hidle, hlead⟩
  · exact absurd hempty hne
  · obtain ⟨rfl, rfl⟩ := List.cons.inj (hpath.symm.trans hsame)
    rw [hlead]
    rfl
  · obtain ⟨rfl, rfl⟩ := List.cons.inj (hpath.symm.trans hsame)
    rw [hlead]
    rfl
  · obtain ⟨rfl, rfl⟩ := List.cons.inj (hpath.symm.trans hsame)
    have hmeaning := isIdle_eq_false_iff.mp hidle
    unfold headComponents
    rw [hlead, if_neg hmeaning.1, if_neg hmeaning.2]
    dsimp only
    rw [innerComponents_cons_of_not_idle hidle]
    rfl

private theorem splitLead_subset (path : List Char) : (splitLead path).2 ⊆ segments path := by
  rcases splitLead_cases path with ⟨-, hlead⟩ | ⟨others, hpath, hlead⟩ | ⟨others, hpath, hlead⟩ |
    ⟨first, others, hpath, -, hlead⟩ <;> rw [hlead]
  · exact List.nil_subset _
  · exact hpath ▸ List.subset_cons_self _ _
  · exact hpath ▸ List.subset_cons_self _ _
  · exact hpath ▸ List.Subset.refl _

private theorem splitLead_length (path : List Char) : (splitLead path).1.length ≤ 1 := by
  rcases splitLead_cases path with ⟨-, hlead⟩ | ⟨_, -, hlead⟩ | ⟨_, -, hlead⟩ |
    ⟨_, _, -, -, hlead⟩ <;> rw [hlead] <;> simp

/-- A named component is a segment that has a meaning of its own. -/
theorem name_mem_components {path segment : List Char} (hmem : .name segment ∈ components path) :
    '/' ∉ segment ∧ isIdle segment = false ∧ segment ≠ ['.', '.'] := by
  have hlead : .name segment ∉ (splitLead path).1 := by
    rcases splitLead_cases path with ⟨-, hlead⟩ | ⟨_, -, hlead⟩ | ⟨_, -, hlead⟩ |
      ⟨_, _, -, -, hlead⟩ <;> rw [hlead] <;> simp
  rw [components_eq] at hmem
  rcases mem_innerComponents ((List.mem_append.mp hmem).resolve_left hlead) with
    hparent | ⟨other, hother, hidle, hname, hsame⟩
  · cases hparent
  · obtain rfl := Component.name.inj hsame
    exact ⟨slash_not_mem_of_mem_segments (splitLead_subset path hother), hidle, hname⟩

private theorem components_eq_nil_iff {path : List Char} : components path = [] ↔ path = [] := by
  constructor
  · intro hnone
    rw [components_eq] at hnone
    rcases splitLead_cases path with ⟨hempty, -⟩ | ⟨others, -, hlead⟩ | ⟨others, -, hlead⟩ |
      ⟨first, others, -, hidle, hlead⟩
    · exact hempty
    · rw [hlead] at hnone
      cases hnone
    · rw [hlead] at hnone
      cases hnone
    · rw [hlead, innerComponents_cons_of_not_idle hidle] at hnone
      cases hnone
  · rintro rfl
    rfl

private theorem isAbsolute_iff {path first : List Char} {others : List (List Char)}
    (hne : path ≠ [])
    (hpath : segments path = first :: others) : isAbsolute path = true ↔ first = [] := by
  cases path with
  | nil => exact absurd rfl hne
  | cons c rest =>
    obtain ⟨second, later, hrest⟩ := exists_segments rest
    rw [segments_cons hrest] at hpath
    unfold isAbsolute
    split at hpath
    · rename_i hc
      obtain ⟨rfl, -⟩ := List.cons.inj hpath
      simp [hc]
    · rename_i hc
      obtain ⟨rfl, -⟩ := List.cons.inj hpath
      simp [hc]

private theorem filter_innerComponents (parts : List (List Char)) :
    (innerComponents parts).filter (· ≠ .current) = innerComponents parts := by
  refine List.filter_eq_self.mpr fun component hmem => ?_
  rcases mem_innerComponents hmem with rfl | ⟨segment, -, -, -, rfl⟩ <;> rfl

/-- Inside another path, a relative path loses its leading `.` and nothing else. -/
theorem innerComponents_segments {path : List Char} (hrelative : isAbsolute path = false) :
    innerComponents (segments path) = (components path).filter (· ≠ .current) := by
  by_cases hne : path = []
  · rw [hne]
    rfl
  · obtain ⟨first, others, hpath⟩ := exists_segments path
    have hfirst : first ≠ [] := fun hnil => by
      rw [(isAbsolute_iff hne hpath).mpr hnil] at hrelative
      cases hrelative
    rw [components_of_segments hne hpath, hpath, List.filter_append, filter_innerComponents]
    unfold headComponents
    rw [if_neg hfirst]
    by_cases hdot : first = ['.']
    · rw [if_pos hdot, innerComponents_cons_of_idle (by rw [hdot]; rfl)]
      rfl
    · rw [if_neg hdot, innerComponents_cons_of_not_idle (isIdle_eq_false_iff.mpr ⟨hfirst, hdot⟩)]
      unfold innerComponent
      split <;> rfl

/-- An absolute path has its root in front, which is an empty segment. -/
theorem root_cons_innerComponents {path : List Char} (habsolute : isAbsolute path = true) :
    .root :: innerComponents (segments path) = components path := by
  have hne : path ≠ [] := by
    rintro rfl
    cases habsolute
  obtain ⟨first, others, hpath⟩ := exists_segments path
  obtain rfl := (isAbsolute_iff hne hpath).mp habsolute
  rw [components_of_segments hne hpath, hpath, innerComponents_cons_of_idle rfl]
  rfl

/-- Only an absolute path has a root, and only in front. -/
theorem root_not_mem_components {path : List Char} (hrelative : isAbsolute path = false) :
    .root ∉ components path := by
  intro hroot
  have hinner : Component.root ∈ innerComponents (segments path) := by
    rw [innerComponents_segments hrelative]
    exact List.mem_filter.mpr ⟨hroot, rfl⟩
  rcases mem_innerComponents hinner with hsame | ⟨segment, -, -, -, hsame⟩ <;> cases hsame

/-! ## Joined paths -/

/-- A path that is joined to the empty one stays as it is. -/
theorem join_nil (inner : List Char) : join [] inner = inner := by
  unfold join
  split <;> rfl

/-- A relative path that is joined to another adds its components, a leading `.` apart. -/
theorem components_join {outer inner : List Char} (hne : outer ≠ [])
    (hrelative : isAbsolute inner = false) :
    components (join outer inner) =
      components outer ++ (components inner).filter (· ≠ .current) := by
  rw [← innerComponents_segments hrelative]
  have hempty : outer.isEmpty = false := by simpa using hne
  unfold join
  rw [if_neg (by rw [hrelative]; exact Bool.false_ne_true), hempty, Bool.false_or]
  split
  · -- the last segment of `outer` is empty, and the first one of `inner` stands in its place
    rename_i hslash
    obtain ⟨before, rfl⟩ := List.getLast?_eq_some_iff.mp (eq_of_beq hslash)
    obtain ⟨first, others, hbefore⟩ := exists_segments before
    have houter : segments (before ++ ['/']) = first :: (others ++ [[]]) := by
      rw [segments_append_slash, hbefore]
      rfl
    have hjoined : segments (before ++ ['/'] ++ inner) = first :: (others ++ segments inner) := by
      rw [List.append_assoc, List.singleton_append, segments_append_slash, hbefore]
      rfl
    have hidle : innerComponents [[]] = [] := rfl
    rw [components_of_segments (List.append_ne_nil_of_left_ne_nil hne inner) hjoined,
      components_of_segments hne houter, innerComponents_append, innerComponents_append, hidle,
      List.append_nil, List.append_assoc]
  · obtain ⟨first, others, houter⟩ := exists_segments outer
    have hjoined : segments (outer ++ '/' :: inner) = first :: (others ++ segments inner) := by
      rw [segments_append_slash, houter]
      rfl
    rw [components_of_segments (List.append_ne_nil_of_left_ne_nil hne _) hjoined,
      components_of_segments hne houter, innerComponents_append, List.append_assoc]

/-! ## Paths made of segments -/

/-- A path of segments whose first one has a meaning has the components of these segments. -/
theorem components_ofSegments {parts : List (List Char)} (hfree : ∀ segment ∈ parts, '/' ∉ segment)
    (hhead : ∀ segment ∈ parts.head?, isIdle segment = false) :
    isAbsolute (ofSegments parts) = false ∧
      components (ofSegments parts) = innerComponents parts := by
  cases parts with
  | nil => exact ⟨rfl, rfl⟩
  | cons first others =>
    have hfirst := hhead first rfl
    have hparts := segments_ofSegments (List.cons_ne_nil first others) hfree
    have hne : ofSegments (first :: others) ≠ [] := by
      intro hnil
      rw [hnil] at hparts
      rw [← (List.cons.inj hparts).1] at hfirst
      cases hfirst
    have hmeaning := isIdle_eq_false_iff.mp hfirst
    constructor
    · rw [← Bool.not_eq_true, isAbsolute_iff hne hparts]
      exact hmeaning.1
    · rw [components_of_segments hne hparts, innerComponents_cons_of_not_idle hfirst]
      unfold headComponents
      rw [if_neg hmeaning.1, if_neg hmeaning.2]
      rfl

private theorem innerComponents_segments_ofSegments {parts : List (List Char)}
    (hfree : ∀ segment ∈ parts, '/' ∉ segment) :
    innerComponents (segments (ofSegments parts)) = innerComponents parts := by
  by_cases hne : parts = []
  · rw [hne]
    rfl
  · rw [segments_ofSegments hne hfree]

/-- Idle segments are trimmed off the end of segments whose first one has a meaning. -/
theorem components_ofSegments_trimEnd {parts : List (List Char)}
    (hfree : ∀ segment ∈ parts, '/' ∉ segment)
    (hhead : ∀ segment ∈ parts.head?, isIdle segment = false) :
    isAbsolute (ofSegments (trimEnd parts)) = false ∧
      components (ofSegments (trimEnd parts)) = innerComponents parts := by
  obtain ⟨idle, hparts⟩ := prefix_trimEnd parts
  rw [← innerComponents_trimEnd]
  refine components_ofSegments (fun segment hmem => hfree segment ?_) fun segment hmem => ?_
  · exact (prefix_trimEnd parts).subset hmem
  · refine hhead segment ?_
    rw [← hparts, List.head?_append, hmem]
    rfl

private theorem innerComponents_of_names {names : List (List Char)}
    (hnames : ∀ name ∈ names, isIdle name = false ∧ name ≠ ['.', '.']) :
    innerComponents names = names.map Component.name := by
  unfold innerComponents
  rw [List.filter_eq_self.mpr fun name hmem => by rw [(hnames name hmem).1]; rfl]
  exact List.map_congr_left fun name hmem => if_neg (hnames name hmem).2

/-- The names of a path, joined, are the components of what they make up. -/
theorem exists_components_namesOnly (path : List Char) :
    isAbsolute (namesOnly path) = false ∧
      ∃ names : List (List Char), components (namesOnly path) = names.map Component.name := by
  unfold namesOnly
  generalize hnames : (components path).filterMap _ = names
  have hmeaning : ∀ name ∈ names, .name name ∈ components path := by
    intro name hmem
    rw [← hnames] at hmem
    obtain ⟨component, hcomponent, hname⟩ := List.mem_filterMap.mp hmem
    cases component with
    | name chars =>
      obtain rfl := Option.some.inj hname
      exact hcomponent
    | root => cases hname
    | current => cases hname
    | parent => cases hname
  obtain ⟨hrelative, hcomponents⟩ := components_ofSegments
    (fun name hmem => (name_mem_components (hmeaning name hmem)).1)
    fun name hmem => (name_mem_components (hmeaning name (List.mem_of_mem_head? hmem))).2.1
  refine ⟨hrelative, names, hcomponents.trans (innerComponents_of_names fun name hmem => ?_)⟩
  exact (name_mem_components (hmeaning name hmem)).2

/-! ## Stripped prefixes -/

/-- Trimming the idle segments off its end leaves the meaning of a path. -/
theorem components_trimPath (path : List Char) :
    isAbsolute (trimPath path) = isAbsolute path ∧
      components (trimPath path) = components path := by
  have hfree : ∀ segment ∈ trimEnd (splitLead path).2, '/' ∉ segment := fun segment hmem =>
    slash_not_mem_of_mem_segments (splitLead_subset path ((prefix_trimEnd _).subset hmem))
  unfold trimPath
  rcases splitLead_cases path with ⟨rfl, -⟩ | ⟨others, hpath, hlead⟩ | ⟨others, hpath, hlead⟩ |
    ⟨first, others, hpath, hidle, hlead⟩
  · exact ⟨rfl, rfl⟩
  · have hne : path ≠ [] := by
      rintro rfl
      cases hlead
    rw [hlead] at hfree ⊢
    have htrimmed : segments ('/' :: ofSegments (trimEnd others)) =
        [] :: segments (ofSegments (trimEnd others)) := segments_append_slash [] _
    refine ⟨((isAbsolute_iff hne hpath).mpr rfl).symm, ?_⟩
    rw [components_of_segments hne hpath, ← innerComponents_trimEnd others]
    refine (components_of_segments (List.cons_ne_nil _ _) htrimmed).trans ?_
    rw [innerComponents_segments_ofSegments hfree]
  · have hne : path ≠ [] := by
      rintro rfl
      cases hlead
    rw [hlead] at hfree ⊢
    have htrimmed := segments_ofSegments (List.cons_ne_nil ['.'] (trimEnd others))
      (List.forall_mem_cons.mpr ⟨by decide, hfree⟩)
    have hkept : ofSegments (['.'] :: trimEnd others) ≠ [] := by
      intro hnil
      rw [hnil] at htrimmed
      cases htrimmed
    constructor
    · rw [Bool.eq_iff_iff]
      exact (isAbsolute_iff hkept htrimmed).trans (isAbsolute_iff hne hpath).symm
    · rw [components_of_segments hne hpath, ← innerComponents_trimEnd others]
      exact components_of_segments hkept htrimmed
  · have hne : path ≠ [] := by
      rintro rfl
      cases hlead
    obtain ⟨hrelative, hcomponents⟩ := @components_ofSegments_trimEnd (first :: others)
      (fun segment hmem => slash_not_mem_of_mem_segments (hpath ▸ hmem))
      (fun segment hmem => Option.some.inj hmem ▸ hidle)
    rw [components_eq path, hlead]
    refine ⟨hrelative.trans ?_, hcomponents⟩
    rw [eq_comm, ← Bool.not_eq_true, isAbsolute_iff hne hpath]
    exact (isIdle_eq_false_iff.mp hidle).1

/-- No prefix can be stripped exactly if the components of the base are no prefix of those of the
path. -/
theorem stripPrefix?_eq_none_iff {path base : List Char} :
    stripPrefix? path base = none ↔ ¬ components base <+: components path := by
  unfold stripPrefix?
  rw [← List.isPrefixOf_iff_prefix]
  dsimp only
  split <;> rename_i hfront
  · split <;> simp [hfront]
  · simp [hfront]

/-- What is left behind a prefix has the components behind those of the prefix. -/
theorem components_of_stripPrefix? {path base rest : List Char}
    (hrest : stripPrefix? path base = some rest) :
    components path = components base ++ components rest ∧
      isAbsolute rest = (base.isEmpty && isAbsolute path) := by
  unfold stripPrefix? at hrest
  dsimp only at hrest
  split at hrest
  · rename_i hfront
    have hsplit := List.prefix_iff_eq_append.mp (List.isPrefixOf_iff_prefix.mp hfront)
    split at hrest
    · rename_i hcount
      obtain rfl := components_eq_nil_iff.mp (List.length_eq_zero_iff.mp hcount)
      obtain rfl := Option.some.inj hrest
      obtain ⟨habsolute, hcomponents⟩ := components_trimPath path
      exact ⟨hcomponents.symm, habsolute⟩
    · rename_i hcount
      obtain rfl := Option.some.inj hrest
      have hbase : base.isEmpty = false := by
        rw [← Bool.not_eq_true, List.isEmpty_iff]
        rintro rfl
        exact hcount rfl
      have hlead : (splitLead path).1.length ≤ (components base).length :=
        Nat.le_trans (splitLead_length path) (Nat.one_le_iff_ne_zero.mpr hcount)
      generalize hleft : dropComponents _ _ = left
      have hmeaning : innerComponents left =
          (components path).drop (components base).length := by
        rw [← hleft, innerComponents_dropComponents, components_eq path, List.drop_append,
          List.drop_of_length_le hlead, List.nil_append]
      have hsegments : left ⊆ segments path := fun segment hmem =>
        splitLead_subset path (mem_of_mem_dropComponents (hleft ▸ hmem))
      obtain ⟨hrelative, hcomponents⟩ := @components_ofSegments_trimEnd (left.dropWhile isIdle)
        (fun segment hmem => slash_not_mem_of_mem_segments
          (hsegments ((List.dropWhile_suffix isIdle).subset hmem)))
        (fun segment hmem => by
          have hhead := List.head?_dropWhile_not isIdle left
          rw [hmem] at hhead
          exact hhead)
      rw [hcomponents, innerComponents_dropWhile, hmeaning, hbase, hrelative]
      exact ⟨hsplit.symm, rfl⟩
  · cases hrest

/-! ## Where components lead -/

/-- The place that a path leads to when no file is looked at: from the root or the directory it is
seen from, so many directories up, and then down by these names. -/
structure Place where
  absolute : Bool
  up : Nat
  down : List (List Char)
  deriving DecidableEq

namespace Place

/-- The directory that relative paths are seen from. -/
def start : Place :=
  ⟨false, 0, []⟩

/-- The place that a component leads to. Above the root there is nothing. -/
def enter (place : Place) : Component → Place
  | .root => ⟨true, 0, []⟩
  | .current => place
  | .parent =>
    if place.down = [] then
      if place.absolute then place else { place with up := place.up + 1 }
    else { place with down := place.down.dropLast }
  | .name chars => { place with down := place.down ++ [chars] }

/-- The place that components lead to. -/
def ofComponents (components : List Component) : Place :=
  components.foldl enter start

/-- Whether a place is a directory, or a place below it. -/
def Contains (directory place : Place) : Prop :=
  place.absolute = directory.absolute ∧ place.up = directory.up ∧ directory.down <+: place.down

instance (directory place : Place) : Decidable (directory.Contains place) :=
  inferInstanceAs (Decidable (_ ∧ _ ∧ _))

private theorem foldl_enter_names (place : Place) (names : List (List Char)) :
    (names.map Component.name).foldl enter place =
      { place with down := place.down ++ names } := by
  induction names generalizing place with
  | nil =>
    rw [List.append_nil]
    rfl
  | cons name names ih =>
    rw [List.map_cons, List.foldl_cons, ih]
    unfold enter
    rw [List.append_assoc, List.singleton_append]

/-- Names lead down. -/
theorem contains_ofComponents_names (components : List Component) (names : List (List Char)) :
    (ofComponents components).Contains
      (ofComponents (components ++ names.map Component.name)) := by
  unfold ofComponents
  rw [List.foldl_append, foldl_enter_names]
  exact ⟨rfl, rfl, List.prefix_append _ _⟩

/-- The names that lead from the root to a place, if it is seen from this directory. -/
def fromRoot (directory : List (List Char)) (place : Place) : List (List Char) :=
  (if place.absolute then [] else directory.take (directory.length - place.up)) ++ place.down

/-- A place that a directory contains lies below it, wherever both are seen from. -/
theorem Contains.prefix_fromRoot {outer place : Place} (hcontains : outer.Contains place)
    (directory : List (List Char)) : outer.fromRoot directory <+: place.fromRoot directory := by
  obtain ⟨habsolute, hup, hdown⟩ := hcontains
  unfold fromRoot
  rw [habsolute, hup]
  exact (List.prefix_append_right_inj _).mpr hdown

/-- Seen from the root, the parent of a place is one name shorter. The root is its own parent. -/
theorem fromRoot_parent (directory : List (List Char)) (place : Place) :
    (place.enter .parent).fromRoot directory = (place.fromRoot directory).dropLast := by
  obtain ⟨absolute, up, down⟩ := place
  unfold enter fromRoot
  dsimp only
  split
  · rename_i hdown
    rw [hdown]
    cases absolute with
    | true => rfl
    | false =>
      simp only [Bool.false_eq_true, ↓reduceIte, List.append_nil, List.dropLast_eq_take,
        List.take_take, List.length_take]
      congr 1
      omega
  · rename_i hdown
    rw [List.dropLast_append_of_ne_nil hdown]

/-- A `.` leads nowhere. -/
theorem foldl_enter_filter (place : Place) (components : List Component) :
    (components.filter (· ≠ .current)).foldl enter place = components.foldl enter place := by
  induction components generalizing place with
  | nil => rfl
  | cons component components ih =>
    by_cases hcurrent : component = .current
    · rw [List.filter_cons_of_neg (by simp [hcurrent]), ih, hcurrent]
      rfl
    · rw [List.filter_cons_of_pos (by simp [hcurrent]), List.foldl_cons, List.foldl_cons, ih]

end Place

/-- Whether the components of a path are those of a directory and names behind them. -/
def Within (directory path : List Char) : Prop :=
  ∃ names : List (List Char), components path = components directory ++ names.map Component.name

/-- On its way a path within a directory never leaves it again. -/
theorem Within.contains {directory path : List Char} (hwithin : Within directory path)
    {way : List Component} (hway : components directory ++ way <+: components path) :
    (Place.ofComponents (components directory)).Contains
      (Place.ofComponents (components directory ++ way)) := by
  obtain ⟨names, hpath⟩ := hwithin
  rw [hpath, List.prefix_append_right_inj] at hway
  obtain ⟨later, hlater⟩ := hway
  obtain ⟨first, -, -, rfl, -⟩ := List.append_eq_map_iff.mp hlater
  exact Place.contains_ofComponents_names _ first

end PhasedTests.Path
