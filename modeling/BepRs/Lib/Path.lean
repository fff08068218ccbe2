/-
  BepRs.Lib.Path — Unix paths as the Rust standard library and the kernel read them.

  A path is its text. `components` is `Path::components` (repeated and trailing slashes
  vanish, `.` only counts at the very start), `push` is `PathBuf::push` (an absolute
  path replaces what it is pushed onto), `PathEq` is `Path`'s equality, by components.
  `resolve` is where the text leads from a working directory, lexically: `..` drops the
  last name, and an absolute text starts again at the root. No symbolic links.

  `names` are the components' texts without the root. Joined again with `/` they are a
  path with the same names (`names_join`), so the joined form is a normal form
  (`normal_idem`).
-/

import Mathlib.Data.List.Chain
import Mathlib.Data.List.DropRight
import Mathlib.Data.List.Basic

namespace BepRs.Lib.Path

abbrev Text := List Char

inductive Component where
  | rootDir
  | curDir
  | parentDir
  | normal (s : Text)
  deriving DecidableEq, Repr

def Component.asOsStr : Component → Text
  | .rootDir => ['/']
  | .curDir => ['.']
  | .parentDir => ['.', '.']
  | .normal s => s

def isAbsolute (p : Text) : Bool := p.head? == some '/'

def parts (p : Text) : List Text := p.splitOn '/'

/-- A part of the text as a component, once the leading `.` is accounted for. -/
def part (s : Text) : Option Component :=
  if s = [] ∨ s = ['.'] then none else if s = ['.', '.'] then some .parentDir else some (.normal s)

def lead (p : Text) : List Component :=
  if isAbsolute p then [.rootDir] else if (parts p).head? = some ['.'] then [.curDir] else []

def components (p : Text) : List Component := lead p ++ (parts p).filterMap part

def PathEq (p q : Text) : Prop := components p = components q

instance (p q : Text) : Decidable (PathEq p q) := inferInstanceAs (Decidable (_ = _))

def push (base p : Text) : Text :=
  if isAbsolute p then p
  else if base = [] ∨ base.getLast? = some '/' then base ++ p
  else base ++ '/' :: p

/-- One component followed from a place. -/
def follow (at_ : List Text) : Component → List Text
  | .rootDir => []
  | .curDir => at_
  | .parentDir => at_.dropLast
  | .normal s => at_ ++ [s]

def resolve (cwd : List Text) (p : Text) : List Text := (components p).foldl follow cwd

/-- `p` leads to `dir` or below it. -/
def Inside (cwd : List Text) (dir p : Text) : Prop := resolve cwd dir <+: resolve cwd p

instance (cwd : List Text) (dir p : Text) : Decidable (Inside cwd dir p) := inferInstanceAs (Decidable (_ <+: _))

/-! ## Parts -/

theorem parts_no_slash (p : Text) : ∀ s ∈ parts p, '/' ∉ s := by
  induction p with
  | nil => intro s hs; simp [parts] at hs; simp [hs]
  | cons c p ih =>
    intro s hs
    rw [parts, List.splitOn_cons_eq_if_modifyHead] at hs
    split at hs
    · rcases List.mem_cons.mp hs with rfl | hs
      · simp
      · exact ih s hs
    · rename_i hc
      have hc' : '/' ≠ c := by intro e; subst e; simp at hc
      cases hp : p.splitOn '/' with
      | nil => exact absurd hp (List.splitOn_ne_nil _ _)
      | cons t ts =>
        rw [hp] at hs
        rcases List.mem_cons.mp hs with rfl | hs
        · have ht : '/' ∉ t := ih t (by rw [parts, hp]; exact List.mem_cons_self)
          simp [hc', ht]
        · exact ih s (by rw [parts, hp]; exact List.mem_cons_of_mem _ hs)

theorem mem_part {s : Text} {c : Component} (h : part s = some c) :
    c ≠ .rootDir ∧ c ≠ .curDir ∧ c.asOsStr = s ∧ s ≠ [] ∧ s ≠ ['.'] := by
  unfold part at h
  split at h
  · cases h
  · rename_i hs
    rw [not_or] at hs
    split at h
    · rename_i h2; cases h; exact ⟨by simp, by simp, by simp [Component.asOsStr, h2], hs⟩
    · cases h; exact ⟨by simp, by simp, rfl, hs⟩

/-! ## The normal form -/

/-- The texts of the components, the root left out. -/
def names (p : Text) : List Text := ((components p).filter (· ≠ .rootDir)).map Component.asOsStr

/-- A component's text that can stand at any place of a relative path. -/
def Plain (s : Text) : Prop := '/' ∉ s ∧ s ≠ [] ∧ s ≠ ['.']

def dotLead (p : Text) : List Text := if isAbsolute p = false ∧ (parts p).head? = some ['.'] then [['.']] else []

def plainParts (p : Text) : List Text := (parts p).filter fun s => s ≠ [] ∧ s ≠ ['.']

theorem part_asOsStr (s : Text) : (part s).map Component.asOsStr = if s ≠ [] ∧ s ≠ ['.'] then some s else none := by
  unfold part
  by_cases h1 : s = []
  · simp [h1]
  · by_cases h2 : s = ['.']
    · simp [h2]
    · by_cases h3 : s = ['.', '.']
      · simp [h3, Component.asOsStr]
      · simp [h1, h2, h3, Component.asOsStr]

/-- No part of a path between slashes is its root. -/
theorem filter_filterMap_part (l : List Text) : (l.filterMap part).filter (· ≠ .rootDir) = l.filterMap part := by
  refine List.filter_eq_self.mpr fun c hc => ?_
  obtain ⟨s, -, hs⟩ := List.mem_filterMap.mp hc
  simpa using (mem_part hs).1

theorem names_eq (p : Text) : names p = dotLead p ++ plainParts p := by
  have hparts : ((parts p).filterMap part).map Component.asOsStr = plainParts p := by
    rw [List.map_filterMap, plainParts, ← List.filterMap_eq_filter]
    refine List.filterMap_congr fun s _ => ?_
    rw [part_asOsStr, Option.guard_def]
    by_cases h : s ≠ [] ∧ s ≠ ['.'] <;> simp [h]
  have hlead : ((lead p).filter (· ≠ .rootDir)).map Component.asOsStr = dotLead p := by
    unfold lead dotLead
    cases isAbsolute p
    · by_cases h : (parts p).head? = some ['.'] <;> simp [h, Component.asOsStr]
    · simp
  rw [names, components, List.filter_append, List.map_append, filter_filterMap_part, hlead, hparts]

theorem plainParts_plain (p : Text) : ∀ s ∈ plainParts p, Plain s := by
  intro s hs
  obtain ⟨h1, h2⟩ := List.mem_filter.mp hs
  exact ⟨parts_no_slash p s h1, of_decide_eq_true h2⟩

/-- A list of names a path can have: plain ones, after at most one leading `.`. -/
def NameList (l : List Text) : Prop := ∃ ss, (∀ s ∈ ss, Plain s) ∧ (l = ss ∨ l = ['.'] :: ss)

theorem names_nameList (p : Text) : NameList (names p) := by
  refine ⟨plainParts p, plainParts_plain p, ?_⟩
  rw [names_eq, dotLead]
  split
  · exact Or.inr rfl
  · exact Or.inl rfl

def join (l : List Text) : Text := ['/'].intercalate l

theorem nameList_no_slash {l : List Text} (h : NameList l) : ∀ s ∈ l, '/' ∉ s ∧ s ≠ [] := by
  obtain ⟨ss, hss, rfl | rfl⟩ := h
  · intro s hs; exact ⟨(hss s hs).1, (hss s hs).2.1⟩
  · intro s hs
    rcases List.mem_cons.mp hs with rfl | hs
    · simp
    · exact ⟨(hss s hs).1, (hss s hs).2.1⟩

theorem parts_join {l : List Text} (h : NameList l) (hl : l ≠ []) : parts (join l) = l :=
  List.splitOn_intercalate '/' (fun s hs => (nameList_no_slash h s hs).1) hl

theorem join_relative {l : List Text} (h : NameList l) : isAbsolute (join l) = false := by
  cases l with
  | nil => rfl
  | cons s ss =>
    obtain ⟨hs1, hs2⟩ := nameList_no_slash h s List.mem_cons_self
    cases s with
    | nil => exact absurd rfl hs2
    | cons c cs =>
      have hc : c ≠ '/' := by intro e; subst e; simp at hs1
      cases ss <;> simp [join, isAbsolute, List.intercalate, List.intersperse, hc]

/-- A joined list of names has these names. -/
theorem names_join {l : List Text} (h : NameList l) : names (join l) = l := by
  by_cases hl : l = []
  · subst hl; decide
  rw [names_eq, dotLead, plainParts, parts_join h hl, join_relative h]
  obtain ⟨ss, hss, rfl | rfl⟩ := h
  · have hfil : l.filter (fun s => s ≠ [] ∧ s ≠ ['.']) = l :=
      List.filter_eq_self.mpr fun s hs => by simpa using (hss s hs).2
    rw [hfil, if_neg, List.nil_append]
    rintro ⟨-, hd⟩
    exact (hss _ (List.mem_of_head? hd)).2.2 rfl
  · have hfil : ss.filter (fun s => s ≠ [] ∧ s ≠ ['.']) = ss :=
      List.filter_eq_self.mpr fun s hs => by simpa using (hss s hs).2
    rw [List.filter_cons_of_neg (by simp), hfil]
    simp

/-- The joined names of a path are a normal form. -/
theorem normal_idem (p : Text) : join (names (join (names p))) = join (names p) := by
  rw [names_join (names_nameList p)]

/-! ## The same form by folding and trimming -/

def trimSlashes (s : Text) : Text := (s.dropWhile (· == '/')).rdropWhile (· == '/')

def slashed (l : List Text) : Text := l.flatMap ('/' :: ·)

theorem join_cons (s : Text) (ss : List Text) : join (s :: ss) = s ++ slashed ss := by
  induction ss generalizing s with
  | nil => simp [join, slashed, List.intercalate]
  | cons t ts ih =>
    have h : join (s :: t :: ts) = s ++ '/' :: join (t :: ts) := by simp [join, List.intercalate]
    rw [h, ih t]
    simp [slashed]

theorem dropWhile_slashed {l : List Text} (h : NameList l) : (slashed l).dropWhile (· == '/') = join l := by
  cases l with
  | nil => rfl
  | cons s ss =>
    obtain ⟨hs1, hs2⟩ := nameList_no_slash h s List.mem_cons_self
    rw [join_cons]
    cases s with
    | nil => exact absurd rfl hs2
    | cons c cs =>
      have hc : c ≠ '/' := by intro e; subst e; simp at hs1
      simp [slashed, hc]

theorem getLast_join {l : List Text} (h : NameList l) (c : Char) (hc : (join l).getLast? = some c) : c ≠ '/' := by
  obtain ⟨init, last, rfl⟩ : ∃ init last, l = init ++ [last] := by
    rcases List.eq_nil_or_concat l with rfl | ⟨init, last, rfl⟩
    · simp [join, List.intercalate] at hc
    · exact ⟨init, last, by simp⟩
  obtain ⟨h1, h2⟩ := nameList_no_slash h last (by simp)
  have hlast : (join (init ++ [last])).getLast? = last.getLast? := by
    cases init with
    | nil => rw [List.nil_append, join_cons]; simp [slashed]
    | cons s ss =>
      rw [List.cons_append, join_cons, slashed, List.flatMap_append]
      cases last with
      | nil => exact absurd rfl h2
      | cons d ds => simp [List.getLast?_append, List.getLast?_cons]
  rw [hlast] at hc
  intro e
  subst e
  exact h1 (List.mem_of_getLast? hc)

/-- Two characters that are not both slashes. -/
def NotSlashes (a b : Char) : Prop := ¬ (a = '/' ∧ b = '/')

theorem append_chain {s r : Text} (hs : '/' ∉ s) (hr : List.IsChain NotSlashes r) : List.IsChain NotSlashes (s ++ r) := by
  induction s with
  | nil => exact hr
  | cons c s ih =>
    have hc : c ≠ '/' := fun he => hs (he ▸ List.mem_cons_self)
    exact List.IsChain.cons (ih fun hm => hs (List.mem_cons_of_mem _ hm)) fun _ _ hboth => hc hboth.1

theorem slashed_chain {l : List Text} (h : ∀ s ∈ l, '/' ∉ s ∧ s ≠ []) : List.IsChain NotSlashes (slashed l) := by
  induction l with
  | nil => exact .nil
  | cons s l ih =>
    obtain ⟨hs, hne⟩ := h s List.mem_cons_self
    have hcons : slashed (s :: l) = '/' :: (s ++ slashed l) := rfl
    rw [hcons]
    refine List.IsChain.cons (append_chain hs (ih fun t ht => h t (List.mem_cons_of_mem _ ht))) ?_
    -- the name after a slash starts with another character
    intro c hc hboth
    cases s with
    | nil => exact hne rfl
    | cons d s =>
      obtain rfl : d = c := by simpa using hc
      exact hs (hboth.2 ▸ List.mem_cons_self)

/-- A joined list of names has no empty name in it. -/
theorem join_chain {l : List Text} (h : NameList l) : List.IsChain NotSlashes (join l) := by
  cases l with
  | nil => exact .nil
  | cons s l =>
    have hl := slashed_chain (nameList_no_slash h)
    have hcons : slashed (s :: l) = '/' :: (s ++ slashed l) := rfl
    rw [hcons] at hl
    rw [join_cons]
    exact hl.tail

/-- The normal form neither starts nor ends with a slash and has no two in a row. -/
theorem join_shape {l : List Text} (h : NameList l) :
    (join l).head? ≠ some '/' ∧ (join l).getLast? ≠ some '/' ∧ ¬ ['/', '/'] <:+: join l := by
  refine ⟨?_, ?_, ?_⟩
  · have hrel := join_relative h
    unfold isAbsolute at hrel
    simpa using hrel
  · intro hlast
    exact getLast_join h '/' hlast rfl
  · rintro ⟨before, after, hin⟩
    have hchain := join_chain h
    rw [← hin] at hchain
    exact (List.isChain_pair.mp hchain.left_of_append.right_of_append) ⟨rfl, rfl⟩

/-- Folding the components with a slash before each and trimming the slashes gives the
    normal form. -/
theorem trim_fold_components (p : Text) :
    trimSlashes ((components p).foldl (fun acc x => acc ++ '/' :: x.asOsStr) []) = join (names p) := by
  have hfold : ∀ (cs : List Component) (acc : Text),
      cs.foldl (fun acc x => acc ++ '/' :: x.asOsStr) acc = acc ++ slashed (cs.map Component.asOsStr) := by
    intro cs
    induction cs with
    | nil => intro acc; simp [slashed]
    | cons c cs ih => intro acc; rw [List.foldl_cons, ih]; simp [slashed]
  have hdrop : (slashed ((components p).map Component.asOsStr)).dropWhile (· == '/') = join (names p) := by
    rw [← dropWhile_slashed (names_nameList p), names]
    unfold components lead
    cases isAbsolute p
    · rw [List.filter_eq_self.mpr]
      intro c hc
      simp only [Bool.false_eq_true, if_false, List.mem_append, List.mem_filterMap] at hc
      rcases hc with hc | ⟨s, -, hs⟩
      · split at hc
        · simp at hc; simp [hc]
        · simp at hc
      · simpa using (mem_part hs).1
    · simp only [if_true, List.filter_append, filter_filterMap_part]
      simp [slashed, Component.asOsStr]
  rw [trimSlashes, hfold, List.nil_append, hdrop]
  refine List.rdropWhile_eq_self_iff.mpr fun hl he => ?_
  exact getLast_join (names_nameList p) _ (List.getLast?_eq_some_getLast hl) (by simpa using he)

/-! ## Names of files -/

/-- What an entry of a directory can be called. -/
def FileName (s : Text) : Prop := Plain s ∧ s ≠ ['.', '.']

instance (s : Text) : Decidable (FileName s) := inferInstanceAs (Decidable ((_ ∧ _ ∧ _) ∧ _))

theorem join_names_fileName {s : Text} (h : FileName s) : join (names s) = s := by
  have hone : names (join [s]) = [s] := names_join ⟨[s], by simpa using h.1, Or.inl rfl⟩
  have hjoin : join [s] = s := by simp [join]
  rw [hjoin] at hone
  rw [hone, hjoin]

/-- Followed from a place with such a name on every level, a path leads to another. -/
theorem resolve_fileName {cwd : List Text} (h : ∀ s ∈ cwd, FileName s) (p : Text) : ∀ s ∈ resolve cwd p, FileName s := by
  have hone : ∀ c ∈ components p, ∀ s, c = .normal s → FileName s := by
    intro c hc s he
    subst he
    rcases List.mem_append.mp hc with hc | hc
    · unfold lead at hc
      split at hc
      · simp at hc
      · split at hc <;> simp at hc
    · obtain ⟨t, ht, hpart⟩ := List.mem_filterMap.mp hc
      obtain ⟨-, -, hts, hne, hdot⟩ := mem_part hpart
      have hst : s = t := hts
      subst hst
      refine ⟨⟨parts_no_slash p s ht, hne, hdot⟩, fun he => ?_⟩
      subst he
      simp [part] at hpart
  have hfold : ∀ (cs : List Component) (l : List Text), (∀ c ∈ cs, ∀ s, c = .normal s → FileName s) →
      (∀ s ∈ l, FileName s) → ∀ s ∈ cs.foldl follow l, FileName s := by
    intro cs
    induction cs with
    | nil => intro l _ hl; exact hl
    | cons c cs ih =>
      intro l hcs hl
      refine ih (follow l c) (fun c' hc' => hcs c' (List.mem_cons_of_mem _ hc')) ?_
      intro s hs
      cases c with
      | rootDir => cases hs
      | curDir => exact hl s hs
      | parentDir => exact hl s (List.dropLast_subset _ hs)
      | normal t =>
        rcases List.mem_append.mp hs with hs | hs
        · exact hl s hs
        · rw [List.mem_singleton.mp hs]; exact hcs _ List.mem_cons_self t rfl
  exact hfold (components p) cwd hone h

theorem parts_fileName {s : Text} (h : FileName s) : parts s = [s] := by
  have hone := parts_join (l := [s]) ⟨[s], by simpa using h.1, Or.inl rfl⟩ (by simp)
  simpa [join] using hone

theorem relative_fileName {s : Text} (h : FileName s) : isAbsolute s = false := by
  cases s with
  | nil => rfl
  | cons c t =>
    have hc : c ≠ '/' := fun e => h.1.1 (by simp [e])
    simpa [isAbsolute] using hc

theorem components_append_slash {b s : Text} (hb : b ≠ []) :
    components (b ++ '/' :: s) = components b ++ (parts s).filterMap part := by
  have hparts : parts (b ++ '/' :: s) = parts b ++ parts s := List.splitOn_append_cons_self b s
  have hhead : (parts b ++ parts s).head? = (parts b).head? := List.head?_append_of_ne_nil _ (List.splitOn_ne_nil _ _)
  have habs : isAbsolute (b ++ '/' :: s) = isAbsolute b := by
    cases b with
    | nil => exact absurd rfl hb
    | cons c b => rfl
  simp only [components, lead, habs, hparts, hhead, List.filterMap_append, List.append_assoc]

/-- A relative text pushed on a path adds its components, but for a leading `.`. -/
theorem components_push_relative {base p : Text} (h : isAbsolute p = false) :
    components (push base p) = (if base = [] then lead p else components base) ++ (parts p).filterMap part := by
  unfold push
  rw [h]
  simp only [Bool.false_eq_true, if_false]
  by_cases hempty : base = []
  · rw [if_pos (Or.inl hempty), if_pos hempty, hempty, List.nil_append, components]
  rw [if_neg hempty]
  split
  · rename_i hbase
    obtain ⟨b, rfl⟩ := List.getLast?_eq_some_iff.mp (hbase.resolve_left hempty)
    rw [List.append_assoc, List.singleton_append]
    by_cases hb : b = []
    · subst hb
      have hparts : parts ('/' :: p) = [] :: parts p := List.splitOn_append_cons_self [] p
      have hroot : components ['/'] = [.rootDir] := by decide
      rw [List.nil_append, List.nil_append, hroot, components, hparts]
      simp [lead, isAbsolute, part]
    · rw [components_append_slash hb, components_append_slash hb]
      simp [parts, part]
  · rw [components_append_slash hempty]

/-- The name of an entry pushed on a path is one more component. -/
theorem components_push {base s : Text} (h : FileName s) : components (push base s) = components base ++ [.normal s] := by
  have hone : (parts s).filterMap part = [.normal s] := by
    simp [parts_fileName h, part, h.1.2.1, h.1.2.2, h.2]
  have hlead : lead s = [] := by
    simp [lead, relative_fileName h, parts_fileName h, h.1.2.2]
  rw [components_push_relative (relative_fileName h), hone]
  by_cases hempty : base = []
  · rw [if_pos hempty, hempty, hlead]
    rfl
  · rw [if_neg hempty]

theorem resolve_push {base s : Text} (h : FileName s) (cwd : List Text) :
    resolve cwd (push base s) = resolve cwd base ++ [s] := by
  rw [resolve, components_push h, List.foldl_append]; rfl

/-! ## Names that stay below -/

/-- A relative text pushed on a path is followed from where the path leads. -/
theorem resolve_push_relative {base p : Text} (h : isAbsolute p = false) (cwd : List Text) :
    resolve cwd (push base p) = ((parts p).filterMap part).foldl follow (resolve cwd base) := by
  rw [resolve, components_push_relative h, List.foldl_append]
  by_cases hempty : base = []
  · -- a leading `.` leads nowhere else
    rw [if_pos hempty, hempty, lead, h]
    simp only [Bool.false_eq_true, if_false]
    split
    · rfl
    · rfl
  · rw [if_neg hempty, resolve]

/-- Followed from `depth` names below a place, the names do not lead above it on the way. -/
def Below : Nat → List Text → Prop
  | _, [] => True
  | depth, s :: ss =>
    if s = ['.', '.'] then 0 < depth ∧ Below (depth - 1) ss
    else if s = ['.'] then Below depth ss else Below (depth + 1) ss

instance decidableBelow : ∀ (depth : Nat) (ss : List Text), Decidable (Below depth ss)
  | _, [] => .isTrue trivial
  | depth, s :: ss =>
    have := decidableBelow (depth - 1) ss
    have := decidableBelow depth ss
    have := decidableBelow (depth + 1) ss
    inferInstanceAs (Decidable (if s = ['.', '.'] then 0 < depth ∧ Below (depth - 1) ss
      else if s = ['.'] then Below depth ss else Below (depth + 1) ss))

/-- No `..` of the name is without a name before it to take back. -/
def Stays (p : Text) : Prop := Below 0 (names p)

instance (p : Text) : Decidable (Stays p) := inferInstanceAs (Decidable (Below 0 _))

theorem foldl_follow_below (base : List Text) : ∀ (ss : List Text) (depth : Nat) (ext : List Text), ext.length = depth →
    (∀ s ∈ ss, s ≠ []) → Below depth ss → base <+: (ss.filterMap part).foldl follow (base ++ ext) := by
  intro ss
  induction ss with
  | nil => intro depth ext _ _ _; exact List.prefix_append _ _
  | cons s ss ih =>
    intro depth ext hlen hne hbelow
    have hrest : ∀ s ∈ ss, s ≠ [] := fun s hs => hne s (List.mem_cons_of_mem _ hs)
    unfold Below at hbelow
    split at hbelow
    · rename_i hup
      subst hup
      have hpart : part ['.', '.'] = some .parentDir := by decide
      have hext : ext ≠ [] := by
        intro he
        rw [he] at hlen
        exact absurd hlen (Nat.ne_of_lt hbelow.1)
      rw [List.filterMap_cons, hpart, List.foldl_cons, follow, List.dropLast_append_of_ne_nil hext]
      exact ih (depth - 1) ext.dropLast (by rw [List.length_dropLast, hlen]) hrest hbelow.2
    · rename_i hup
      split at hbelow
      · rename_i hdot
        subst hdot
        have hpart : part ['.'] = none := by decide
        rw [List.filterMap_cons, hpart]
        exact ih depth ext hlen hrest hbelow
      · rename_i hdot
        have hpart : part s = some (.normal s) := by
          unfold part
          rw [if_neg (not_or.mpr ⟨hne s List.mem_cons_self, hdot⟩), if_neg hup]
        rw [List.filterMap_cons, hpart, List.foldl_cons, follow, List.append_assoc]
        exact ih (depth + 1) (ext ++ [s]) (by rw [List.length_append, hlen]; rfl) hrest hbelow

/-- The normal form of a name that stays leads below any path it is pushed on. -/
theorem inside_push_normal {p : Text} (h : Stays p) (cwd : List Text) (base : Text) :
    Inside cwd base (push base (join (names p))) := by
  have hlist := names_nameList p
  have hparts : (parts (join (names p))).filterMap part = (names p).filterMap part := by
    by_cases hnil : names p = []
    · rw [hnil]; decide
    · rw [parts_join hlist hnil]
  rw [Inside, resolve_push_relative (join_relative hlist), hparts]
  have hfold := foldl_follow_below (resolve cwd base) (names p) 0 [] rfl (fun s hs => (nameList_no_slash hlist s hs).2) h
  rwa [List.append_nil] at hfold

theorem stays_normal {p : Text} : Stays (join (names p)) ↔ Stays p := by
  unfold Stays
  rw [names_join (names_nameList p)]

theorem stays_fileName {s : Text} (h : FileName s) : Stays s := by
  have hone : names s = [s] := by
    have := names_join (l := [s]) ⟨[s], by simpa using h.1, Or.inl rfl⟩
    simpa [join] using this
  unfold Stays
  rw [hone]
  simp [Below, h.2, h.1.2.2]

/-- Paths that are equal have the same names. -/
theorem PathEq.names {p q : Text} (h : PathEq p q) : names p = names q := by rw [Path.names, Path.names, h]

end BepRs.Lib.Path
