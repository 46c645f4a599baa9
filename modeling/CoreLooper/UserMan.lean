import CoreLooper.CStrings

/-!
# UserMan

The users of a device, with their passwords and levels. Names are unique, and one administrator
should remain. The list is the whole state; storing it and the notice to the program about a
change are left out.
-/
namespace CoreLooper.UserMan
open CStrings

inductive UserLevel where
  | Invalid | Admin | Operator | Guest
  deriving DecidableEq, Repr

inductive UserManError where
  | Unknown | Success | InvalidParam | UserExists | ActionNotPermitted | NotExists
  deriving DecidableEq, Repr

structure TagUserInfo where
  id : ℤ
  name : Bytes
  password : Bytes
  level : UserLevel
  deriving DecidableEq, Repr

/-- A name is not empty, has no return, line feed or colon, and at most 31 bytes. The length is
cast to an `int`. -/
def isValidUsrString (sz : Bytes) : Bool :=
  if sz = [] ∨ 13 ∈ sz ∨ 10 ∈ sz ∨ 58 ∈ sz then false else i32 sz.length ≤ 31

def isValidPwdString (sz : Bytes) : Bool :=
  if 13 ∈ sz ∨ 10 ∈ sz ∨ 58 ∈ sz then false else i32 sz.length ≤ 31

def isExistAdminExclude (users : List TagUserInfo) (user : Bytes) : Bool :=
  users.any fun u => user ≠ u.name ∧ u.level = .Admin

def findUserInfo (users : List TagUserInfo) (usr : Bytes) : Option TagUserInfo :=
  users.find? fun u => usr = u.name

/-- Writing through the pointer that `FindUserInfo` gives. -/
def modifyUser (usr : Bytes) (f : TagUserInfo → TagUserInfo) : List TagUserInfo → List TagUserInfo
  | [] => []
  | u :: users => if usr = u.name then f u :: users else u :: modifyUser usr f users

def maxId (users : List TagUserInfo) : ℤ :=
  users.foldl (fun max_id u => if max_id < u.id then u.id else max_id) 0

def addUser (users : List TagUserInfo) (usr pwd : Bytes) (level : UserLevel) :
    UserManError × List TagUserInfo :=
  if !isValidUsrString usr || !isValidPwdString pwd then (.InvalidParam, users)
  else if (findUserInfo users usr).isSome then (.UserExists, users)
  else (.Success, users ++ [⟨i32 (maxId users + 1), usr, pwd, level⟩])

/-- The password is asked for when the name changes. -/
def editUserPassword (users : List TagUserInfo) (user password newUser newPassword : Bytes) :
    UserManError × List TagUserInfo :=
  if !isValidUsrString newUser || !isValidPwdString newPassword then (.InvalidParam, users)
  else
    let info := findUserInfo users user
    if newUser ≠ user ∧ info.all (·.password ≠ password) then (.ActionNotPermitted, users)
    else if newUser ≠ user ∧ (findUserInfo users newUser).isSome then (.UserExists, users)
    else if info.isSome then
      (.Success, modifyUser user
        (fun u => { u with name := newUser, password := newPassword }) users)
    else (.Unknown, users)

def editUser (users : List TagUserInfo) (usr pwd : Bytes) (level : UserLevel) :
    UserManError × List TagUserInfo :=
  if !isValidUsrString usr || !isValidPwdString pwd then (.InvalidParam, users)
  else if (findUserInfo users usr).isSome then
    (.Success, modifyUser usr (fun u => { u with password := pwd, level := level }) users)
  else (.NotExists, users)

/-- The last administrator stays. -/
def deleteUser (users : List TagUserInfo) (usr : Bytes) : UserManError × List TagUserInfo :=
  match findUserInfo users usr with
  | none => (.NotExists, users)
  | some u =>
      if u.level = .Admin ∧ isExistAdminExclude users u.name = false then
        (.ActionNotPermitted, users)
      else (.Success, users.eraseP fun u => usr = u.name)

inductive Call where
  | addUser (usr pwd : Bytes) (level : UserLevel)
  | editUserPassword (user password newUser newPassword : Bytes)
  | editUser (usr pwd : Bytes) (level : UserLevel)
  | deleteUser (usr : Bytes)
  deriving DecidableEq, Repr

def call (users : List TagUserInfo) : Call → UserManError × List TagUserInfo
  | .addUser usr pwd level => addUser users usr pwd level
  | .editUserPassword user password newUser newPassword =>
      editUserPassword users user password newUser newPassword
  | .editUser usr pwd level => editUser users usr pwd level
  | .deleteUser usr => deleteUser users usr

/-- What should hold of the list at all times. -/
structure Valid (users : List TagUserInfo) : Prop where
  admin : ∃ u ∈ users, u.level = .Admin
  names : (users.map (·.name)).Nodup
  strings : ∀ u ∈ users, isValidUsrString u.name = true ∧ isValidPwdString u.password = true

/-- A call that takes the rights of the last administrator away. -/
def Demotes (users : List TagUserInfo) : Call → Prop
  | .editUser usr pwd level =>
      isValidUsrString usr = true ∧ isValidPwdString pwd = true ∧ level ≠ .Admin ∧
        isExistAdminExclude users usr = false
  | _ => False

section
variable {users : List TagUserInfo} {usr pwd : Bytes} {f : TagUserInfo → TagUserInfo}
  {u : TagUserInfo} {c : Call} {calls : List Call}

theorem findUserInfo_some (h : findUserInfo users usr = some u) : u ∈ users ∧ u.name = usr := by
  have hname := List.find?_some h
  simp only [decide_eq_true_eq] at hname
  exact ⟨List.mem_of_find?_eq_some h, hname.symm⟩

theorem findUserInfo_none (h : (findUserInfo users usr).isSome = false) :
    ∀ u ∈ users, u.name ≠ usr := by
  intro u hu hname
  rw [Option.isSome_eq_false_iff, Option.isNone_iff_eq_none, findUserInfo,
    List.find?_eq_none] at h
  exact h u hu (by simpa using hname.symm)

/-- With unique names, one user is written. -/
theorem modifyUser_eq (h : (users.map (·.name)).Nodup) :
    modifyUser usr f users = users.map fun u => if usr = u.name then f u else u := by
  induction users with
  | nil => rfl
  | cons v users ih =>
      rw [List.map_cons, List.nodup_cons] at h
      rw [modifyUser, List.map_cons]
      split_ifs with hname
      · congr 1
        refine (List.map_id users).symm.trans (List.map_congr_left fun w hw => ?_)
        rw [if_neg]
        · rfl
        · intro hw'
          exact h.1 (List.mem_map.mpr ⟨w, hw, by rw [← hw', hname]⟩)
      · rw [ih h.2]

/-- Two users of one name are the same. -/
theorem Valid.unique (h : Valid users) {v : TagUserInfo} (hu : u ∈ users) (hv : v ∈ users)
    (hname : u.name = v.name) : u = v := List.inj_on_of_nodup_map h.names hu hv hname

theorem isExistAdminExclude_iff : isExistAdminExclude users usr = true ↔
    ∃ u ∈ users, usr ≠ u.name ∧ u.level = .Admin := by
  simp [isExistAdminExclude]

theorem addUser_valid (h : Valid users) (usr pwd : Bytes) (level : UserLevel) :
    Valid (addUser users usr pwd level).2 := by
  unfold addUser
  split_ifs with hbad hexists
  · exact h
  · exact h
  · simp only [Bool.or_eq_true, Bool.not_eq_true', not_or, Bool.not_eq_false] at hbad
    obtain ⟨v, hv, hadmin⟩ := h.admin
    refine ⟨⟨v, List.mem_append_left _ hv, hadmin⟩, ?_, ?_⟩
    · have hnew : usr ∉ users.map (·.name) := by
        intro hmem
        obtain ⟨w, hw, hname⟩ := List.mem_map.mp hmem
        exact findUserInfo_none (by simpa using hexists) w hw hname
      rw [List.map_append]
      simpa [List.nodup_append, h.names] using fun a ha hname => hnew (by
        rw [← hname]
        exact List.mem_map_of_mem ha)
    · intro w hw
      rcases List.mem_append.mp hw with hw | hw
      · exact h.strings w hw
      · rw [List.mem_singleton.mp hw]
        exact hbad

theorem editUserPassword_valid (h : Valid users) (user password newUser newPassword : Bytes) :
    Valid (editUserPassword users user password newUser newPassword).2 := by
  unfold editUserPassword
  dsimp only
  split_ifs with hbad hpassword hexists hinfo
  · exact h
  · exact h
  · exact h
  · simp only [Bool.or_eq_true, Bool.not_eq_true', not_or, Bool.not_eq_false] at hbad
    have hnew : newUser = user ∨ ∀ u ∈ users, u.name ≠ newUser := by
      by_cases hsame : newUser = user
      · exact Or.inl hsame
      · exact Or.inr (findUserInfo_none (by simpa [hsame] using hexists))
    rw [modifyUser_eq h.names]
    refine ⟨?_, ?_, ?_⟩
    · obtain ⟨v, hv, hadmin⟩ := h.admin
      refine ⟨_, List.mem_map_of_mem hv, ?_⟩
      split_ifs
      · exact hadmin
      · exact hadmin
    · rw [List.map_map]
      refine List.Nodup.map_on ?_ (List.Nodup.of_map _ h.names)
      intro v hv w hw hvw
      simp only [Function.comp] at hvw
      split_ifs at hvw with hv' hw' hw'
      · exact h.unique hv hw (hv'.symm.trans hw')
      · rcases hnew with rfl | hnew
        · exact absurd hvw hw'
        · exact absurd hvw.symm (hnew w hw)
      · rcases hnew with rfl | hnew
        · exact absurd hvw.symm hv'
        · exact absurd hvw (hnew v hv)
      · exact h.unique hv hw hvw
    · intro w hw
      obtain ⟨v, hv, rfl⟩ := List.mem_map.mp hw
      split_ifs
      · exact hbad
      · exact h.strings v hv
  · exact h

theorem editUser_strings (h : Valid users) (hpwd : isValidPwdString pwd = true) (usr : Bytes)
    (level : UserLevel) : ∀ u ∈ users.map (fun u =>
      if usr = u.name then { u with password := pwd, level := level } else u),
      isValidUsrString u.name = true ∧ isValidPwdString u.password = true := by
  intro w hw
  obtain ⟨v, hv, rfl⟩ := List.mem_map.mp hw
  split_ifs
  · exact ⟨(h.strings v hv).1, hpwd⟩
  · exact h.strings v hv

/-- `EditUser` keeps the list valid unless it takes the rights of the last administrator. -/
theorem editUser_valid_iff (h : Valid users) (usr pwd : Bytes) (level : UserLevel) :
    Valid (editUser users usr pwd level).2 ↔ ¬ Demotes users (.editUser usr pwd level) := by
  unfold editUser Demotes
  split_ifs with hbad hfound
  · refine iff_of_true h ?_
    rintro ⟨husr, hpwd, -⟩
    simp [husr, hpwd] at hbad
  · simp only [Bool.or_eq_true, Bool.not_eq_true', not_or, Bool.not_eq_false] at hbad
    rw [modifyUser_eq h.names]
    constructor
    · rintro hvalid ⟨-, -, hlevel, hno⟩
      obtain ⟨w, hw, hadmin⟩ := hvalid.admin
      obtain ⟨v, hv, rfl⟩ := List.mem_map.mp hw
      split_ifs at hadmin with hname
      · exact hlevel hadmin
      · have hyes := isExistAdminExclude_iff.mpr ⟨v, hv, hname, hadmin⟩
        rw [hno] at hyes
        cases hyes
    · intro hkept
      refine ⟨?_, ?_, editUser_strings h hbad.2 usr level⟩
      · by_cases hlevel : level = .Admin
        · obtain ⟨v, hv⟩ := Option.isSome_iff_exists.mp hfound
          obtain ⟨hmem, hname⟩ := findUserInfo_some hv
          refine ⟨_, List.mem_map_of_mem hmem, ?_⟩
          rw [if_pos hname.symm]
          exact hlevel
        · have hother : isExistAdminExclude users usr = true := by
            by_contra hno
            exact hkept ⟨hbad.1, hbad.2, hlevel, by simpa using hno⟩
          obtain ⟨v, hv, hname, hadmin⟩ := isExistAdminExclude_iff.mp hother
          refine ⟨_, List.mem_map_of_mem hv, ?_⟩
          rw [if_neg hname]
          exact hadmin
      · have hkeep : (users.map fun u =>
            if usr = u.name then { u with password := pwd, level := level } else u).map (·.name) =
            users.map (·.name) := by
          rw [List.map_map]
          refine List.map_congr_left fun v _ => ?_
          simp only [Function.comp]
          split_ifs <;> rfl
        rw [hkeep]
        exact h.names
  · -- nobody has this name, so there is another administrator
    refine iff_of_true h ?_
    rintro ⟨-, -, -, hno⟩
    obtain ⟨v, hv, hadmin⟩ := h.admin
    have hne := findUserInfo_none (by simpa using hfound) v hv
    have hyes := isExistAdminExclude_iff.mpr ⟨v, hv, Ne.symm hne, hadmin⟩
    rw [hno] at hyes
    cases hyes

theorem deleteUser_valid (h : Valid users) (usr : Bytes) : Valid (deleteUser users usr).2 := by
  unfold deleteUser
  cases hfind : findUserInfo users usr with
  | none => exact h
  | some v =>
      obtain ⟨hv, hname⟩ := findUserInfo_some hfind
      dsimp only
      split_ifs with hlast
      · exact h
      · have hsub := List.eraseP_sublist (l := users) (p := fun u => usr = u.name)
        refine ⟨?_, h.names.sublist (hsub.map _), fun w hw => h.strings w (hsub.mem hw)⟩
        -- an administrator of another name remains
        have hother : ∃ w ∈ users, usr ≠ w.name ∧ w.level = .Admin := by
          by_cases hadmin : v.level = .Admin
          · rw [← isExistAdminExclude_iff, ← hname]
            simpa [hadmin] using hlast
          · obtain ⟨w, hw, hwadmin⟩ := h.admin
            refine ⟨w, hw, fun heq => hadmin ?_, hwadmin⟩
            rw [h.unique hv hw (hname.trans heq)]
            exact hwadmin
        obtain ⟨w, hw, hne, hwadmin⟩ := hother
        exact ⟨w, (List.mem_eraseP_of_neg (by simpa using hne)).mpr hw, hwadmin⟩

/-- A call that is refused changes nothing. -/
theorem call_error (h : (call users c).1 ≠ .Success) : (call users c).2 = users := by
  cases c with
  | addUser usr pwd level =>
      simp only [call, addUser] at h ⊢
      split_ifs at h ⊢ <;> simp_all
  | editUserPassword user password newUser newPassword =>
      simp only [call, editUserPassword] at h ⊢
      split_ifs at h ⊢ <;> simp_all
  | editUser usr pwd level =>
      simp only [call, editUser] at h ⊢
      split_ifs at h ⊢ <;> simp_all
  | deleteUser usr =>
      simp only [call, deleteUser] at h ⊢
      cases hfind : findUserInfo users usr with
      | none => rfl
      | some u =>
          simp only [hfind] at h ⊢
          split_ifs at h ⊢ with hlast
          · rfl
          · exact absurd rfl h

theorem call_valid_iff (h : Valid users) (c : Call) :
    Valid (call users c).2 ↔ ¬ Demotes users c := by
  cases c with
  | addUser usr pwd level => exact iff_of_true (addUser_valid h usr pwd level) id
  | editUserPassword user password newUser newPassword =>
      exact iff_of_true (editUserPassword_valid h user password newUser newPassword) id
  | editUser usr pwd level => exact editUser_valid_iff h usr pwd level
  | deleteUser usr => exact iff_of_true (deleteUser_valid h usr) id

/-- The list is valid after every call, and a call that is refused changes nothing. -/
def Safe : List TagUserInfo → List Call → Prop
  | _, [] => True
  | users, c :: calls =>
      Valid (call users c).2 ∧ ((call users c).1 ≠ .Success → (call users c).2 = users) ∧
        Safe (call users c).2 calls

/-- No call takes the rights of the last administrator away. -/
def NeverDemotes : List TagUserInfo → List Call → Prop
  | _, [] => True
  | users, c :: calls => ¬ Demotes users c ∧ NeverDemotes (call users c).2 calls

theorem safe_iff (h : Valid users) (calls : List Call) :
    Safe users calls ↔ NeverDemotes users calls := by
  induction calls generalizing users with
  | nil => exact Iff.rfl
  | cons c calls ih =>
      rw [Safe, NeverDemotes, ← call_valid_iff h c]
      constructor
      · rintro ⟨hvalid, -, hsafe⟩
        exact ⟨hvalid, (ih hvalid).mp hsafe⟩
      · rintro ⟨hvalid, hkept⟩
        exact ⟨hvalid, call_error, (ih hvalid).mpr hkept⟩

end

/-- The list of a device that was not set up yet. -/
def defaultUsers : List TagUserInfo := [⟨0, ascii "admin", ascii "admin", .Admin⟩]

theorem defaultUsers_valid : Valid defaultUsers :=
  ⟨by decide +kernel, by decide +kernel, by decide +kernel⟩

/-- A second user is added, the administrator cannot be deleted and is renamed. -/
theorem safe_default :
    Safe defaultUsers [.addUser (ascii "bob") (ascii "1") .Guest, .deleteUser (ascii "admin"),
        .editUserPassword (ascii "admin") (ascii "admin") (ascii "root") (ascii "2")] ↔
      NeverDemotes defaultUsers [.addUser (ascii "bob") (ascii "1") .Guest,
        .deleteUser (ascii "admin"),
        .editUserPassword (ascii "admin") (ascii "admin") (ascii "root") (ascii "2")] :=
  safe_iff defaultUsers_valid _

/-- The only administrator is made a guest. -/
theorem safe_demoted :
    editUser defaultUsers (ascii "admin") (ascii "admin") .Guest =
        (.Success, [⟨0, ascii "admin", ascii "admin", .Guest⟩]) ∧
      ¬ Safe defaultUsers [.editUser (ascii "admin") (ascii "admin") .Guest] := by
  have hcall : editUser defaultUsers (ascii "admin") (ascii "admin") .Guest =
      (.Success, [⟨0, ascii "admin", ascii "admin", .Guest⟩]) := by decide +kernel
  refine ⟨hcall, fun h => ?_⟩
  obtain ⟨⟨u, hu, hadmin⟩, -, -⟩ := h.1
  rw [call, hcall] at hu
  rw [List.mem_singleton.mp hu] at hadmin
  cases hadmin

/-- One entry changed, and it is the user's with the password that was given. -/
def ChangesOwn (users users' : List TagUserInfo)
    (user password newUser newPassword : Bytes) : Prop :=
  ∃ i u, users[i]? = some u ∧ u.name = user ∧ u.password = password ∧
    users' = users.set i { u with name := newUser, password := newPassword }

/-- The password is only changed by someone who knows it. -/
def Authorised (users : List TagUserInfo) (user password newUser newPassword : Bytes) : Prop :=
  let r := editUserPassword users user password newUser newPassword
  (r.1 = .Success → ChangesOwn users r.2 user password newUser newPassword) ∧
    (r.1 ≠ .Success → r.2 = users)

/-- The name changes, the new strings are refused, or the user has no other password than the one
given. -/
def Checked (users : List TagUserInfo) (user password newUser newPassword : Bytes) : Prop :=
  newUser ≠ user ∨ isValidUsrString newUser = false ∨ isValidPwdString newPassword = false ∨
    ∀ u, findUserInfo users user = some u → u.password = password

section
variable {users : List TagUserInfo} {usr : Bytes} {u : TagUserInfo}

theorem modifyUser_set (h : findUserInfo users usr = some u) (f : TagUserInfo → TagUserInfo) :
    ∃ i, users[i]? = some u ∧ modifyUser usr f users = users.set i (f u) := by
  induction users with
  | nil => cases h
  | cons v users ih =>
      rw [findUserInfo, List.find?_cons] at h
      by_cases hname : usr = v.name
      · simp only [hname, decide_true, Option.some.injEq] at h
        subst h
        exact ⟨0, rfl, by rw [modifyUser, if_pos hname, List.set_cons_zero]⟩
      · simp only [hname, decide_false] at h
        obtain ⟨i, hi, hset⟩ := ih h
        exact ⟨i + 1, hi, by rw [modifyUser, if_neg hname, hset, List.set_cons_succ]⟩

/-- Two writes of the same text into different entries that leave the same list wrote nothing. -/
theorem set_eq_set {i j : ℕ} {v u' v' : TagUserInfo} (hne : i ≠ j) (hi : users[i]? = some u)
    (hj : users[j]? = some v) (h : users.set i u' = users.set j v') : u' = u ∧ v' = v := by
  have hilt := (List.getElem?_eq_some_iff.mp hi).choose
  have hjlt := (List.getElem?_eq_some_iff.mp hj).choose
  constructor
  · have hat := congrArg (·[i]?) h
    simp only [List.getElem?_set_self hilt, List.getElem?_set_ne (Ne.symm hne), hi] at hat
    exact Option.some.inj hat
  · have hat := congrArg (·[j]?) h
    simp only [List.getElem?_set_self hjlt, List.getElem?_set_ne hne, hj] at hat
    exact (Option.some.inj hat).symm

theorem editUserPassword_success {user password newUser newPassword : Bytes}
    (h : (editUserPassword users user password newUser newPassword).1 = .Success) :
    ∃ i u, findUserInfo users user = some u ∧ users[i]? = some u ∧
      (newUser ≠ user → u.password = password) ∧
      (editUserPassword users user password newUser newPassword).2 =
        users.set i { u with name := newUser, password := newPassword } := by
  unfold editUserPassword at h ⊢
  dsimp only at h ⊢
  split_ifs at h ⊢ with hbad hpassword hexists hinfo
  obtain ⟨u, hu⟩ := Option.isSome_iff_exists.mp hinfo
  obtain ⟨i, hi, hset⟩ := modifyUser_set hu
    fun u => { u with name := newUser, password := newPassword }
  refine ⟨i, u, hu, hi, ?_, hset⟩
  intro hne
  simpa [hne, hu] using hpassword

/-- The old password is asked for when the name changes, and only then. -/
theorem authorised_iff (users : List TagUserInfo) (user password newUser newPassword : Bytes) :
    Authorised users user password newUser newPassword ↔
      Checked users user password newUser newPassword := by
  have hrefused := @call_error users
    (.editUserPassword user password newUser newPassword)
  constructor
  · rintro ⟨hchanges, -⟩
    by_contra hunchecked
    simp only [Checked, not_or, not_not, not_forall] at hunchecked
    obtain ⟨rfl, husr, hpwd, u, hu, hother⟩ := hunchecked
    have hsuccess : (editUserPassword users newUser password newUser newPassword).1 = .Success := by
      simp [editUserPassword, husr, hpwd, hu]
    obtain ⟨i, v, hv, hi, -, hset⟩ := editUserPassword_success hsuccess
    obtain ⟨j, w, hj, -, hw, hset'⟩ := hchanges hsuccess
    cases hu.symm.trans hv
    by_cases hij : i = j
    · subst hij
      cases hi.symm.trans hj
      exact hother hw
    · -- both entries already had the new password
      obtain ⟨hu', hw'⟩ := set_eq_set hij hi hj (hset.symm.trans hset')
      have hunew : newPassword = u.password := congrArg (·.password) hu'
      have hwnew : newPassword = w.password := congrArg (·.password) hw'
      exact hother (hunew.symm.trans (hwnew.trans hw))
  · intro hchecked
    refine ⟨?_, hrefused⟩
    intro hsuccess
    obtain ⟨i, u, hu, hi, hpassword, hset⟩ := editUserPassword_success hsuccess
    refine ⟨i, u, hi, (findUserInfo_some hu).2, ?_, hset⟩
    rcases hchecked with hne | husr | hpwd | hsame
    · exact hpassword hne
    · simp [editUserPassword, husr] at hsuccess
    · simp [editUserPassword, hpwd] at hsuccess
    · exact hsame u hu

end

/-- The administrator's password is replaced without being known. -/
theorem password_replaced :
    editUserPassword defaultUsers (ascii "admin") (ascii "x") (ascii "admin") (ascii "2") =
        (.Success, [⟨0, ascii "admin", ascii "2", .Admin⟩]) ∧
      ¬ Authorised defaultUsers (ascii "admin") (ascii "x") (ascii "admin") (ascii "2") := by
  have hcall : editUserPassword defaultUsers (ascii "admin") (ascii "x") (ascii "admin")
      (ascii "2") = (.Success, [⟨0, ascii "admin", ascii "2", .Admin⟩]) := by decide
  refine ⟨hcall, ?_⟩
  rintro ⟨hchanges, -⟩
  obtain ⟨i, u, hi, -, hpassword, -⟩ := hchanges (by rw [hcall])
  have hmem := List.mem_of_getElem? hi
  rw [defaultUsers, List.mem_singleton] at hmem
  rw [hmem] at hpassword
  revert hpassword
  decide

end CoreLooper.UserMan
