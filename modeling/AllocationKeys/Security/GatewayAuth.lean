import AllocationKeys.Lib.Regex
import Mathlib.Data.List.DropRight

/-!
# The organisations of a request

The gateway forwards the organisations of the caller in the `x-user-orgs` header, one block for
each, `[orgId:<id> orgPath:<path> roles:[<roles>]]`, with nothing escaped. `parseUserOrgs` reads
them with one pattern, and `roleOf` takes the role in the community of the request.

`parseUserOrgs_iff`: whatever the roles are, the tokens are those of the organisations, and so are
the roles in their communities, exactly when every path is `Clean`: it does not end in whitespace,
and has no whitespace followed by `roles:[`.
-/

namespace AllocationKeys.Security

open Regex

/-- Text, by its code points. -/
abbrev Text : Type := List Char

/-! ### Roles -/

inductive Role where
  | member
  | manager
  | admin
  deriving DecidableEq

def Role.value : Role → Text
  | .member => "MEMBER".toList
  | .manager => "MANAGER".toList
  | .admin => "ADMIN".toList

/-- `Role(r)`, which looks for the member with this value. -/
def Role.ofText (r : Text) : Option Role :=
  [.member, .manager, .admin].find? fun role => role.value == r

/-- `ROLE_HIERARCHY`. -/
def Role.rank : Role → ℤ
  | .member => 1
  | .manager => 2
  | .admin => 3

structure OrgToken where
  orgId : Text
  orgPath : Text
  role : Role
  deriving DecidableEq

def resolveHighestRole (roles : List Text) : Option Role :=
  (roles.foldl (fun (best : Option Role × ℤ) r =>
    match Role.ofText r with
    | none => best
    | some role => if best.2 < role.rank then (some role, role.rank) else best) (none, -1)).1

/-! ### Parsing -/

/-- `str.isspace`, which is what `\s` matches. -/
def isSpace (c : Char) : Bool :=
  (0x09 ≤ c.val && c.val ≤ 0x0d) || (0x1c ≤ c.val && c.val ≤ 0x20) || c.val == 0x85 ||
    c.val == 0xa0 || c.val == 0x1680 || (0x2000 ≤ c.val && c.val ≤ 0x200a) || c.val == 0x2028 ||
    c.val == 0x2029 || c.val == 0x202f || c.val == 0x205f || c.val == 0x3000

/-- What separates roles. -/
def isSeparator (c : Char) : Bool := c == ',' || isSpace c

def strip (s : Text) : Text := (s.dropWhile isSpace).rdropWhile isSpace

/-- The end of `_ORG_RE`, after the path. -/
def rolesRe : Pattern :=
  .seq (.plus isSpace) (.seq (.text "roles:[".toList)
    (.seq (.group (.many fun c => c != ']')) (.text [']'])))

/-- `_ORG_RE`. -/
def orgRe : Pattern :=
  .seq (.text "orgId:".toList) (.seq (.group (.plus fun c => !isSpace c)) (.seq (.plus isSpace)
    (.seq (.text "orgPath:".toList) (.seq (.group (.manyLazy fun c => c != '\n')) rolesRe))))

/-- The roles between runs of separators. -/
def roleList (rolesRaw : Text) : List Text :=
  ((strip rolesRaw).splitOnP isSeparator).filter fun r => !r.isEmpty

/-- What a match adds to the tokens. -/
def tokenOf : List Text → Option OrgToken
  | [orgId, orgPath, rolesRaw] =>
      (resolveHighestRole (roleList rolesRaw)).map fun highest => ⟨orgId, orgPath, highest⟩
  | _ => none

def parseUserOrgs (userOrgs : Text) : List OrgToken :=
  (orgRe.finditer userOrgs).filterMap tokenOf

/-- The role `GatewayScopeMiddleware` sets for a request. -/
def roleOf (communityId userOrgs : Option Text) : Option Role :=
  match communityId, userOrgs with
  | some communityId, some userOrgs =>
      if communityId ≠ [] ∧ userOrgs ≠ [] then
        ((parseUserOrgs userOrgs).find? fun token => token.orgId == communityId).map OrgToken.role
      else none
  | _, _ => none

/-! ### The header -/

/-- The id of an organisation. -/
structure OrgId where
  text : Text
  nonempty : text ≠ []
  noSpace : ∀ c ∈ text, isSpace c = false

/-- A group path, `/` and the name. -/
structure GroupPath where
  name : Text
  oneLine : '\n' ∉ name

def GroupPath.text (path : GroupPath) : Text := '/' :: path.name

structure RoleWord where
  text : Text
  nonempty : text ≠ []
  plain : ∀ c ∈ text, isSeparator c = false ∧ c ≠ ']'

structure Organisation where
  id : OrgId
  path : GroupPath
  roles : List RoleWord

/-- Roles, with commas or spaces between them. -/
inductive RendersRoles : List RoleWord → Text → Prop
  | nil : RendersRoles [] []
  | single (role : RoleWord) : RendersRoles [role] role.text
  | cons (role next : RoleWord) {roles : List RoleWord} {separators text : Text} :
      separators ≠ [] → (∀ c ∈ separators, c = ',' ∨ c = ' ') →
        RendersRoles (next :: roles) text →
          RendersRoles (role :: next :: roles) (role.text ++ separators ++ text)

/-- The block of an organisation, without the bracket before it and the one after it. -/
def block (org : Organisation) (roles : Text) : Text :=
  "orgId:".toList ++ (org.id.text ++ ([' '] ++ ("orgPath:".toList ++ (org.path.text ++ ([' '] ++
    ("roles:[".toList ++ (roles ++ [']'])))))))

/-- Blocks joined by `,map`. -/
inductive Renders : List Organisation → Text → Prop
  | nil : Renders [] []
  | single {org : Organisation} {roles : Text} : RendersRoles org.roles roles →
      Renders [org] (['['] ++ block org roles ++ [']'])
  | cons {org next : Organisation} {orgs : List Organisation} {roles userOrgs : Text} :
      RendersRoles org.roles roles → Renders (next :: orgs) userOrgs →
        Renders (org :: next :: orgs)
          (['['] ++ block org roles ++ ([']'] ++ ",map".toList ++ userOrgs))

/-- The highest of the roles that are known. -/
def highestRole (roles : List Text) : Option Role :=
  [.admin, .manager, .member].find? fun role => roles.contains role.value

def Organisation.highest (org : Organisation) : Option Role :=
  highestRole (org.roles.map RoleWord.text)

/-- The token of an organisation, if it has a known role. -/
def Organisation.token (org : Organisation) : Option OrgToken :=
  org.highest.map fun role => ⟨org.id.text, org.path.text, role⟩

/-- The path does not look like the end of a block. -/
structure Clean (path : Text) : Prop where
  noRoles : ∀ u c v, path = u ++ c :: ("roles:[".toList ++ v) → isSpace c = false
  noSpaceLast : ∀ u c, path = u ++ [c] → isSpace c = false

/-! ### Reading the roles -/

def rankOf (role : Option Role) : ℤ := (role.map Role.rank).getD (-1)

def higher (role role' : Option Role) : Option Role :=
  if rankOf role < rankOf role' then role' else role

/-- The higher of three roles, in any grouping. -/
theorem higher_assoc (a b c : Option Role) : higher (higher a b) c = higher a (higher b c) := by
  rcases a with _ | _ | _ | _ <;> rcases b with _ | _ | _ | _ <;>
    rcases c with _ | _ | _ | _ <;> rfl

/-- A role is read back from its text. -/
theorem ofText_value (role : Role) : Role.ofText role.value = some role := by
  cases role <;> decide

theorem value_of_ofText {r : Text} {role : Role} (h : Role.ofText r = some role) :
    role.value = r := by
  simpa using List.find?_some h

/-- The branches of the source, in its order. -/
theorem highestRole_eq (roles : List Text) : highestRole roles =
    if roles.contains Role.admin.value then some .admin
    else if roles.contains Role.manager.value then some .manager
    else if roles.contains Role.member.value then some .member
    else none := by
  simp only [highestRole, List.find?_cons, List.find?_nil]
  cases roles.contains Role.admin.value <;> cases roles.contains Role.manager.value <;>
    cases roles.contains Role.member.value <;> rfl

/-- One more role counts if it is higher. -/
theorem highestRole_cons (r : Text) (roles : List Text) :
    highestRole (r :: roles) = higher (Role.ofText r) (highestRole roles) := by
  have hcons : ∀ role : Role, (r :: roles).contains role.value =
      (Role.ofText r == some role || roles.contains role.value) := by
    intro role
    rw [List.contains_cons]
    congr 1
    rw [Bool.eq_iff_iff, beq_iff_eq, beq_iff_eq]
    exact ⟨fun h => h ▸ ofText_value role, fun h => value_of_ofText h⟩
  rw [highestRole_eq, highestRole_eq, hcons, hcons, hcons]
  cases roles.contains Role.admin.value <;> cases roles.contains Role.manager.value <;>
    cases roles.contains Role.member.value <;> rcases Role.ofText r with _ | _ | _ | _ <;> rfl

/-- The loop over the priorities finds the highest role. -/
theorem resolveHighestRole_eq (roles : List Text) :
    resolveHighestRole roles = highestRole roles := by
  have hfold : ∀ best : Option Role, (roles.foldl (fun (best : Option Role × ℤ) r =>
      match Role.ofText r with
      | none => best
      | some role => if best.2 < role.rank then (some role, role.rank) else best)
      (best, rankOf best)).1 = higher best (highestRole roles) := by
    induction roles with
    | nil =>
      intro best
      rcases best with _ | _ | _ | _ <;> rfl
    | cons r roles ih =>
      intro best
      have hstep : (match Role.ofText r with
          | none => (best, rankOf best)
          | some role => if rankOf best < role.rank then (some role, role.rank)
            else (best, rankOf best)) =
          (higher best (Role.ofText r), rankOf (higher best (Role.ofText r))) := by
        rcases Role.ofText r with _ | _ | _ | _ <;> rcases best with _ | _ | _ | _ <;> rfl
      rw [List.foldl_cons, hstep, ih, highestRole_cons, higher_assoc]
  refine (hfold none).trans ?_
  rcases highestRole roles with _ | _ | _ | _ <;> rfl

/-- A separator adds no field. -/
theorem fields_separator {c : Char} (hc : isSeparator c = true) (s : Text) :
    ((c :: s).splitOnP isSeparator).filter (fun r => !r.isEmpty) =
      (s.splitOnP isSeparator).filter fun r => !r.isEmpty := by
  rw [← List.nil_append (c :: s), List.splitOnP_append_cons _ _ hc, List.splitOnP_nil]
  rfl

/-- The fields of a rendered list are the roles. -/
theorem fields_of_renders {roles : List RoleWord} {text : Text} (h : RendersRoles roles text) :
    (text.splitOnP isSeparator).filter (fun r => !r.isEmpty) = roles.map RoleWord.text := by
  induction h with
  | nil => rfl
  | single role =>
    rw [List.splitOnP_eq_singleton fun c hc => (role.plain c hc).1]
    simp [role.nonempty]
  | @cons role next roles separators text hne hseparators _ ih =>
    have hskip : ∀ separators : Text, (∀ c ∈ separators, c = ',' ∨ c = ' ') →
        ((separators ++ text).splitOnP isSeparator).filter (fun r => !r.isEmpty) =
          (text.splitOnP isSeparator).filter fun r => !r.isEmpty := by
      intro separators h
      induction separators with
      | nil => rfl
      | cons c separators ih =>
        obtain ⟨hc, h⟩ := List.forall_mem_cons.mp h
        rw [List.cons_append, fields_separator (by rcases hc with rfl | rfl <;> decide), ih h]
    obtain ⟨c, separators, rfl⟩ := List.exists_cons_of_ne_nil hne
    obtain ⟨hc, hseparators⟩ := List.forall_mem_cons.mp hseparators
    rw [List.append_assoc, List.cons_append, List.splitOnP_append_cons_of_forall_mem
      (fun d hd => (role.plain d hd).1) _ (by rcases hc with rfl | rfl <;> decide)]
    rw [List.filter_cons_of_pos (by simp [role.nonempty]), hskip _ hseparators, ih]
    rfl

theorem noSpace_of_mem {role : RoleWord} {c : Char} (hc : c ∈ role.text) : isSpace c = false := by
  have hplain := (role.plain c hc).1
  rw [isSeparator, Bool.or_eq_false_iff] at hplain
  exact hplain.2

/-- A rendered list does not begin with a space. -/
theorem head_of_renders {role : RoleWord} {roles : List RoleWord} {text : Text}
    (h : RendersRoles (role :: roles) text) : ∃ c s, text = c :: s ∧ isSpace c = false := by
  obtain ⟨c, s, hrole⟩ := List.exists_cons_of_ne_nil role.nonempty
  have hspace : isSpace c = false := noSpace_of_mem (hrole ▸ List.mem_cons_self ..)
  cases h with
  | single => exact ⟨c, s, hrole, hspace⟩
  | cons _ next => exact ⟨c, _, by rw [hrole, List.cons_append, List.cons_append], hspace⟩

/-- A rendered list does not end with a space. -/
theorem last_of_renders {role : RoleWord} {roles : List RoleWord} {text : Text}
    (h : RendersRoles (role :: roles) text) : ∃ s c, text = s ++ [c] ∧ isSpace c = false := by
  generalize hroles : role :: roles = all at h
  induction h generalizing role roles with
  | nil => cases hroles
  | single last =>
    have hlast := List.dropLast_append_getLast last.nonempty
    exact ⟨_, _, hlast.symm, noSpace_of_mem (List.getLast_mem last.nonempty)⟩
  | cons _ next _ _ _ ih =>
    obtain ⟨s, c, rfl, hspace⟩ := ih rfl
    exact ⟨_, c, (List.append_assoc ..).symm, hspace⟩

/-- Rendered roles begin and end with a role. -/
theorem strip_of_renders {roles : List RoleWord} {text : Text} (h : RendersRoles roles text) :
    strip text = text := by
  cases roles with
  | nil =>
    cases h
    rfl
  | cons role roles =>
    obtain ⟨c, s, hhead, hc⟩ := head_of_renders h
    obtain ⟨s', d, hlast, hd⟩ := last_of_renders h
    have hdrop : text.dropWhile isSpace = text := by
      rw [hhead, List.dropWhile_cons_of_neg (by rw [hc]; exact Bool.false_ne_true)]
    rw [strip, hdrop, hlast,
      List.rdropWhile_concat_neg _ _ _ (by rw [hd]; exact Bool.false_ne_true)]

/-- The rendered roles are read back. -/
theorem roleList_of_renders {roles : List RoleWord} {text : Text} (h : RendersRoles roles text) :
    roleList text = roles.map RoleWord.text := by
  rw [roleList, strip_of_renders h, fields_of_renders h]

/-- A rendered list does not close the bracket. -/
theorem notMem_of_renders {roles : List RoleWord} {text : Text} (h : RendersRoles roles text) :
    ']' ∉ text := by
  induction h with
  | nil => simp
  | single role => exact fun h => (role.plain _ h).2 rfl
  | cons role next _ hseparators _ ih =>
    simp only [List.mem_append, not_or]
    refine ⟨⟨fun h => (role.plain _ h).2 rfl, fun h => ?_⟩, ih⟩
    rcases hseparators _ h with h | h <;> cases h

/-! ### The end of a block -/

variable {k : List Text → Text → Option (List Text × Text)} {groups : List Text}
  {found : List Text × Text}

/-- The end of the pattern matches spaces and a list of roles. -/
theorem rolesRe_append {spaces roles rest : Text} (hne : spaces ≠ [])
    (hspaces : ∀ c ∈ spaces, isSpace c = true) (hroles : ']' ∉ roles)
    (hk : k (groups ++ [roles]) rest = some found) :
    rolesRe.run k groups (spaces ++ ("roles:[".toList ++ (roles ++ (']' :: rest)))) =
      some found := by
  refine Pattern.run_plus_append hne hspaces (fun c hc => by cases hc; decide) ?_
  rw [Pattern.run_seq, Pattern.run_text_append, Pattern.run_seq]
  refine Pattern.run_group_many_append (fun c hc => ?_) (by simp) ?_
  · rw [bne_iff_ne]
    rintro rfl
    exact hroles hc
  · exact (Pattern.run_text_append [']'] rest).trans hk

/-- It matches nothing else. -/
theorem exists_of_rolesRe {s : Text} (h : rolesRe.run k groups s = some found) :
    ∃ spaces roles rest, s = spaces ++ ("roles:[".toList ++ (roles ++ (']' :: rest))) ∧
      spaces ≠ [] ∧ (∀ c ∈ spaces, isSpace c = true) ∧ ']' ∉ roles ∧
      k (groups ++ [roles]) rest = some found := by
  obtain ⟨spaces, afterSpaces, rfl, hne, hspaces, h⟩ := Pattern.exists_of_plus h
  obtain ⟨afterName, rfl, h⟩ := Pattern.exists_of_text h
  obtain ⟨roles, afterRoles, rfl, hroles, h⟩ := Pattern.exists_of_group_many h
  obtain ⟨rest, rfl, h⟩ := Pattern.exists_of_text h
  exact ⟨spaces, roles, rest, rfl, hne, hspaces, fun h => absurd (hroles _ h) (by decide), h⟩

/-- A text that is not matched is of no such form. -/
theorem ne_append_of_rolesRe_eq_none {s : Text} (spaces roles rest : Text)
    (h : rolesRe.run (fun groups rest => some (groups, rest)) groups s = none) (hne : spaces ≠ [])
    (hspaces : ∀ c ∈ spaces, isSpace c = true) (hroles : ']' ∉ roles) :
    s ≠ spaces ++ ("roles:[".toList ++ (roles ++ (']' :: rest))) := by
  rintro rfl
  cases h.symm.trans (rolesRe_append hne hspaces hroles rfl)

/-! ### A block -/

/-- Whitespace and `roles:[` do not stand in a clean path. -/
theorem Clean.not_append {path u spaces v : Text} (hclean : Clean path) (hne : spaces ≠ [])
    (hspaces : ∀ c ∈ spaces, isSpace c = true) :
    path ≠ u ++ (spaces ++ ("roles:[".toList ++ v)) := by
  intro hpath
  have hlast := List.dropLast_append_getLast hne
  have hspace := hspaces _ (List.getLast_mem hne)
  rw [hclean.noRoles (u ++ spaces.dropLast) (spaces.getLast hne) v] at hspace
  · cases hspace
  · rw [hpath, List.append_assoc, List.append_cons spaces.dropLast, hlast]

/-- Within a clean path, nothing looks like the end of a block. -/
theorem rolesRe_eq_none {path u₁ u₂ rest : Text} (hclean : Clean path) (hpath : path = u₁ ++ u₂)
    (hne : u₂ ≠ []) : rolesRe.run k groups (u₂ ++ (' ' :: ("roles:[".toList ++ rest))) = none := by
  by_contra hsome
  obtain ⟨found, hfound⟩ := Option.ne_none_iff_exists'.mp hsome
  obtain ⟨spaces, roles, rest', heq, hspaces_ne, hspaces, -, -⟩ := exists_of_rolesRe hfound
  rcases List.append_eq_append_iff.mp heq with ⟨x, rfl, -⟩ | ⟨x, rfl, hx⟩
  · -- the whitespace goes to the end of the path
    have hlast := List.dropLast_append_getLast hne
    have hspace := hspaces _ (List.mem_append_left x (List.getLast_mem hne))
    rw [hclean.noSpaceLast (u₁ ++ u₂.dropLast) (u₂.getLast hne)
      (by rw [hpath, List.append_assoc, hlast])] at hspace
    cases hspace
  · -- the whitespace ends in the path, and `roles:[` begins there, which has no space in it
    rcases List.append_eq_append_iff.mp hx with ⟨y, rfl, -⟩ | ⟨y, hroles, hy⟩
    · exact hclean.not_append hspaces_ne hspaces hpath
    · cases y with
      | nil =>
        rw [List.append_nil] at hroles
        subst hroles
        exact hclean.not_append (v := []) hspaces_ne hspaces (by rw [hpath, List.append_nil])
      | cons c y =>
        obtain ⟨rfl, -⟩ := List.cons.inj hy
        have hmem : ' ' ∈ "roles:[".toList := hroles ▸ by simp
        exact absurd hmem (by decide)

/-- On a clean path the first match is the whole block. -/
theorem first_block {org : Organisation} {roles rest : Text} (hroles : ']' ∉ roles)
    (hclean : Clean org.path.text) :
    orgRe.first (block org roles ++ rest) = some ([org.id.text, org.path.text, roles], rest) := by
  have hline : ∀ c ∈ org.path.text, (c != '\n') = true := by
    intro c hc
    rw [bne_iff_ne]
    rintro rfl
    rcases List.mem_cons.mp hc with h | h
    · cases h
    · exact org.path.oneLine h
  simp only [block, List.append_assoc]
  rw [Pattern.first, orgRe, Pattern.run_seq, Pattern.run_text_append, Pattern.run_seq]
  refine Pattern.run_group_plus_append org.id.nonempty
    (fun c hc => by rw [org.id.noSpace c hc]; rfl) (fun c hc => by cases hc; rfl) ?_
  rw [Pattern.run_seq]
  refine Pattern.run_plus_append (List.cons_ne_nil _ _) (fun c hc => ?_)
    (fun c hc => by cases hc; rfl) ?_
  · rw [List.mem_singleton.mp hc]
    rfl
  rw [Pattern.run_seq, Pattern.run_text_append, Pattern.run_seq]
  refine Pattern.run_group_manyLazy_append hline (fun u₁ u₂ heq hne => ?_) ?_
  · exact rolesRe_eq_none hclean heq hne
  · exact rolesRe_append (List.cons_ne_nil _ _) (fun c hc => by rw [List.mem_singleton.mp hc]; rfl)
      hroles rfl

/-- A path that is captured is clean: the lazy loop would have stopped before. -/
theorem exists_of_first {s : Text} (h : orgRe.first s = some found) :
    ∃ orgId orgPath rolesRaw, found.1 = [orgId, orgPath, rolesRaw] ∧ Clean orgPath := by
  obtain ⟨afterName, rfl, h⟩ := Pattern.exists_of_text h
  obtain ⟨orgId, afterId, rfl, -, -, h⟩ := Pattern.exists_of_group_plus h
  obtain ⟨-, afterSpaces, rfl, -, -, h⟩ := Pattern.exists_of_plus h
  obtain ⟨afterPathName, rfl, h⟩ := Pattern.exists_of_text h
  obtain ⟨orgPath, afterPath, rfl, -, h, hbefore⟩ := Pattern.exists_of_group_manyLazy h
  obtain ⟨spaces, roles, rest, rfl, hne, hspaces, hroles, hfound⟩ := exists_of_rolesRe h
  cases hfound
  refine ⟨orgId, orgPath, roles, rfl, ⟨fun u c v heq => ?_, fun u c heq => ?_⟩⟩
  · -- a bracket follows in any case, and the first one would have ended the roles
    by_contra hc
    rw [Bool.not_eq_false] at hc
    have hbracket : ']' ∈ v ++ (spaces ++ ("roles:[".toList ++ (roles ++ ']' :: rest))) := by simp
    obtain ⟨roles', rest', hsplit, hroles'⟩ := List.eq_append_cons_of_mem hbracket
    refine ne_append_of_rolesRe_eq_none [c] roles' rest' (hbefore u (c :: ("roles:[".toList ++ v))
      heq (List.cons_ne_nil _ _)) (List.cons_ne_nil c []) (by simpa using hc) hroles' ?_
    rw [List.cons_append, List.append_assoc, hsplit]
    rfl
  · by_contra hc
    rw [Bool.not_eq_false] at hc
    exact ne_append_of_rolesRe_eq_none (c :: spaces) roles rest
      (hbefore u [c] heq (List.cons_ne_nil _ _)) (List.cons_ne_nil c spaces)
      (by simpa [hc] using hspaces) hroles rfl

/-! ### The header -/

/-- A match begins with an `o`. -/
theorem first_of_ne {c : Char} (hc : c ≠ 'o') (s : Text) : orgRe.first (c :: s) = none :=
  Pattern.run_text_of_ne (Ne.symm hc) _ _

/-- One match for each block, on clean paths. -/
theorem finditer_block {org : Organisation} {roles : Text} (hroles : ']' ∉ roles)
    (hclean : Clean org.path.text) (rest : Text) :
    orgRe.finditer (['['] ++ block org roles ++ rest) =
      [org.id.text, org.path.text, roles] :: orgRe.finditer rest := by
  rw [List.append_assoc, List.singleton_append, Pattern.finditer_skip (first_of_ne (by decide) _)]
  exact Pattern.finditer_match (by simp [block]) (first_block hroles hclean)

/-- The token of a block is that of its organisation. -/
theorem tokenOf_block {org : Organisation} {roles : Text} (h : RendersRoles org.roles roles) :
    tokenOf [org.id.text, org.path.text, roles] = org.token := by
  rw [tokenOf, resolveHighestRole_eq, roleList_of_renders h]
  rfl

/-- With clean paths, the tokens are those of the organisations. -/
theorem parseUserOrgs_of_clean {orgs : List Organisation} {userOrgs : Text}
    (h : Renders orgs userOrgs) (hclean : ∀ org ∈ orgs, Clean org.path.text) :
    parseUserOrgs userOrgs = orgs.filterMap Organisation.token := by
  rw [parseUserOrgs]
  induction h with
  | nil => rfl
  | single hroles =>
    rw [finditer_block (notMem_of_renders hroles) (hclean _ (List.mem_cons_self ..)),
      Pattern.finditer_skip (first_of_ne (by decide) _), Pattern.finditer_nil, List.filterMap_cons,
      List.filterMap_cons, tokenOf_block hroles]
    rfl
  | @cons org next orgs roles userOrgs hroles _ ih =>
    have hskip : orgRe.finditer ([']'] ++ ",map".toList ++ userOrgs) = orgRe.finditer userOrgs := by
      show orgRe.finditer (']' :: ',' :: 'm' :: 'a' :: 'p' :: userOrgs) = _
      iterate 5 rw [Pattern.finditer_skip (first_of_ne (by decide) _)]
    rw [finditer_block (notMem_of_renders hroles) (hclean _ (List.mem_cons_self ..)), hskip,
      List.filterMap_cons, tokenOf_block hroles, List.filterMap_cons,
      ih fun other hother => hclean other (List.mem_cons_of_mem _ hother)]

/-- Whatever the header is, the path of a token is clean. -/
theorem clean_of_mem_parseUserOrgs {userOrgs : Text} {token : OrgToken}
    (h : token ∈ parseUserOrgs userOrgs) : Clean token.orgPath := by
  obtain ⟨groups, hgroups, htoken⟩ := List.mem_filterMap.mp h
  obtain ⟨s, rest, hfirst⟩ := Pattern.exists_of_mem_finditer hgroups
  obtain ⟨orgId, orgPath, rolesRaw, heq, hclean⟩ := exists_of_first hfirst
  cases heq
  obtain ⟨role, -, rfl⟩ := Option.map_eq_some_iff.mp htoken
  exact hclean

/-- The role in a community, from the organisations. -/
def roleIn (communityId : Text) (orgs : List Organisation) : Option Role :=
  orgs.findSome? fun org => if org.id.text = communityId then org.highest else none

/-- The role that is looked up is the role in the community. -/
theorem find?_tokens (communityId : Text) (orgs : List Organisation) :
    ((orgs.filterMap Organisation.token).find? fun token => token.orgId == communityId).map
      OrgToken.role = roleIn communityId orgs := by
  induction orgs with
  | nil => rfl
  | cons org orgs ih =>
    rw [roleIn] at ih ⊢
    rw [List.findSome?_cons, List.filterMap_cons, Organisation.token]
    cases org.highest with
    | none => simpa using ih
    | some role =>
      by_cases hid : org.id.text = communityId
      · simp [hid]
      · simpa [hid] using ih

/-- A header that is parsed to its organisations gives the role in the community. -/
theorem roleOf_eq {orgs : List Organisation} {userOrgs : Text} (h : Renders orgs userOrgs)
    (hparse : parseUserOrgs userOrgs = orgs.filterMap Organisation.token) (communityId : Text) :
    roleOf (some communityId) (some userOrgs) = roleIn communityId orgs := by
  rw [roleOf, hparse, find?_tokens]
  by_cases hboth : communityId ≠ [] ∧ userOrgs ≠ []
  · rw [if_pos hboth]
  · rw [if_neg hboth]
    rcases not_and_or.mp hboth with hid | hempty
    · rw [eq_comm, roleIn, List.findSome?_eq_none_iff]
      intro org _
      rw [if_neg fun heq => org.id.nonempty (heq.trans (not_not.mp hid))]
    · cases h with
      | nil => rfl
      | single _ => exact absurd (by simp) hempty
      | cons _ _ => exact absurd (by simp) hempty

theorem exists_rendersRoles (roles : List RoleWord) : ∃ text, RendersRoles roles text := by
  induction roles with
  | nil => exact ⟨_, .nil⟩
  | cons role roles ih =>
    obtain ⟨text, htext⟩ := ih
    cases roles with
    | nil => exact ⟨_, .single role⟩
    | cons next roles => exact ⟨_, .cons role next (List.cons_ne_nil ',' []) (by simp) htext⟩

/-- Every list of organisations can be rendered. -/
theorem exists_renders (orgs : List Organisation) : ∃ userOrgs, Renders orgs userOrgs := by
  induction orgs with
  | nil => exact ⟨_, .nil⟩
  | cons org orgs ih =>
    obtain ⟨userOrgs, hrest⟩ := ih
    obtain ⟨roles, hroles⟩ := exists_rendersRoles org.roles
    cases orgs with
    | nil => exact ⟨_, .single hroles⟩
    | cons next orgs => exact ⟨_, .cons hroles hrest⟩

def adminWord : RoleWord := ⟨"ADMIN".toList, by decide, by simp [isSeparator, isSpace]⟩

/-- The header is read as it was meant: the tokens are those of the organisations, and the role in
a community is the one its organisation gives. -/
def ReadAsMeant (orgs : List Organisation) (userOrgs : Text) : Prop :=
  parseUserOrgs userOrgs = orgs.filterMap Organisation.token ∧
    ∀ communityId, roleOf (some communityId) (some userOrgs) = roleIn communityId orgs

/-- **Whatever the roles are, the header is read as it was meant, exactly when every path is
clean.** -/
theorem parseUserOrgs_iff (groups : List (OrgId × GroupPath)) :
    (∀ (orgs : List Organisation) (userOrgs : Text),
      orgs.map (fun org => (org.id, org.path)) = groups → Renders orgs userOrgs →
        ReadAsMeant orgs userOrgs) ↔ ∀ group ∈ groups, Clean group.2.text := by
  constructor
  · intro h group hgroup
    obtain ⟨userOrgs, hrenders⟩ :=
      exists_renders (groups.map fun group => ⟨group.1, group.2, [adminWord]⟩)
    obtain ⟨hparse, -⟩ := h _ userOrgs (by simp [Function.comp_def]) hrenders
    have hmem : OrgToken.mk group.1.text group.2.text .admin ∈ parseUserOrgs userOrgs := by
      rw [hparse, List.mem_filterMap]
      exact ⟨_, List.mem_map_of_mem hgroup, rfl⟩
    exact clean_of_mem_parseUserOrgs hmem
  · rintro hclean orgs userOrgs rfl hrenders
    have hparse := parseUserOrgs_of_clean hrenders fun org horg =>
      hclean _ (List.mem_map_of_mem horg)
    exact ⟨hparse, roleOf_eq hrenders hparse⟩

/-- A member of an organisation whose group is named like the end of a block. -/
def misread : Organisation where
  id := ⟨"abc".toList, by decide, by simp [isSpace]⟩
  path := ⟨"x roles:[ADMIN]".toList, by decide⟩
  roles := [⟨"MEMBER".toList, by decide, by simp [isSeparator, isSpace]⟩]

/-- The member is taken for an administrator. -/
theorem misread_not_readAsMeant : ¬ ∀ (orgs : List Organisation) (userOrgs : Text),
    Renders orgs userOrgs → ReadAsMeant orgs userOrgs := by
  intro h
  obtain ⟨-, hrole⟩ := h [misread] _ (.single (.single _))
  have hadmin := hrole "abc".toList
  revert hadmin
  decide +kernel

end AllocationKeys.Security
