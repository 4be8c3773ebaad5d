import Squeaknode.Lookups
import Squeaknode.Retention

/-!
# Profiles

The profile methods of `SqueakDb`: `insert_profile`, the lookups by id, address
and name, the lists of all, signing, contact and followed profiles, the
`UPDATE`s by `profile_id` and `delete_profile`. Four updates write columns
without a constraint and cannot fail; `set_profile_name` writes the unique
`profile_name`, so the database refuses it when another profile has the name,
and the `IntegrityError` propagates to the caller.

`profile_id` is the primary key, but the table structure only carries the
counter it is drawn from: `ProfileIdsUnique` is an invariant of the writes
(`profileOps_keep_ids_unique`). On such a table a rename fails exactly when
another profile holds the name (`setProfileName_eq_none_iff`), and the profile
each write leaves under an id is read back by `get_profile`
(`getProfile_profileWrites`, `getProfile_insertProfile`).
-/

namespace Squeaknode

-- ---------------------------------------------------------------------------
-- The queries
-- ---------------------------------------------------------------------------

section Queries

variable (st : Store)

def getProfiles : List SqueakProfile := st.profiles.rows.map parseSqueakProfile

def getSigningProfiles : List SqueakProfile :=
  (st.profiles.rows.filter fun p => p.privateKey.isSome).map parseSqueakProfile

def getContactProfiles : List SqueakProfile :=
  (st.profiles.rows.filter fun p => p.privateKey.isNone).map parseSqueakProfile

def getFollowingProfiles : List SqueakProfile :=
  (st.profiles.rows.filter (·.following)).map parseSqueakProfile

def getFollowingProfilesFromAddreses (addresses : List String) : List SqueakProfile :=
  (st.profiles.rows.filter fun p => p.following && addresses.contains p.address).map parseSqueakProfile

def Store.profileById (profileId : Nat) : Option ProfileRow :=
  st.profiles.rows.find? (·.profileId == profileId)

def getProfile (profileId : Nat) : Option SqueakProfile := (st.profileById profileId).map parseSqueakProfile

def getProfileByAddress (address : String) : Option SqueakProfile :=
  (st.profiles.rows.find? (·.address == address)).map parseSqueakProfile

def getProfileByName (name : String) : Option SqueakProfile :=
  (st.profiles.rows.find? (·.profileName == name)).map parseSqueakProfile

end Queries

-- ---------------------------------------------------------------------------
-- The writes
-- ---------------------------------------------------------------------------

/-- `UPDATE profile SET ... WHERE profile_id = :profile_id`, for a change that
keeps the id, the name and the address, so that no constraint can fail. -/
def ProfileTable.setWhere (t : ProfileTable) (profileId : Nat) (f : ProfileRow → ProfileRow)
    (hf : ∀ p, (f p).profileId = p.profileId ∧ (f p).profileName = p.profileName ∧
      (f p).address = p.address) : ProfileTable :=
  have hkeep : ∀ {κ : Type} (key : ProfileRow → κ), (∀ p, key (f p) = key p) →
      t.rows.map (fun p => key (if p.profileId = profileId then f p else p)) = t.rows.map key :=
    fun key hkey => List.map_congr_left fun p _ => by split <;> simp only [hkey]
  ⟨t.rows.map fun p => if p.profileId = profileId then f p else p, t.nextId,
    by rw [List.map_map]; exact (hkeep _ fun p => (hf p).2.1) ▸ t.name_nodup,
    by rw [List.map_map]; exact (hkeep _ fun p => (hf p).2.2) ▸ t.address_nodup,
    fun p hp => by
      obtain ⟨q, hq, rfl⟩ := List.mem_map.mp hp
      split
      · rw [(hf q).1]; exact t.id_lt q hq
      · exact t.id_lt q hq⟩

def setProfileFollowing (st : Store) (profileId : Nat) (following : Bool) : Store :=
  { st with profiles := (st.profiles.setWhere profileId (fun p => { p with following := following })
      fun _ => ⟨rfl, rfl, rfl⟩) }

def setProfileUseCustomPrice (st : Store) (profileId : Nat) (useCustomPrice : Bool) : Store :=
  { st with profiles := (st.profiles.setWhere profileId
      (fun p => { p with useCustomPrice := useCustomPrice }) fun _ => ⟨rfl, rfl, rfl⟩) }

def setProfileCustomPriceMsat (st : Store) (profileId : Nat) (customPriceMsat : Int) : Store :=
  { st with profiles := (st.profiles.setWhere profileId
      (fun p => { p with customPriceMsat := customPriceMsat }) fun _ => ⟨rfl, rfl, rfl⟩) }

def setProfileImage (st : Store) (profileId : Nat) (profileImage : Bytes) : Store :=
  { st with profiles := (st.profiles.setWhere profileId
      (fun p => { p with profileImage := some profileImage }) fun _ => ⟨rfl, rfl, rfl⟩) }

def renamedRows (t : ProfileTable) (profileId : Nat) (profileName : String) : List ProfileRow :=
  t.rows.map fun p => if p.profileId = profileId then { p with profileName := profileName } else p

/-- `set_profile_name`: `none` for the `IntegrityError` the database raises
when the rows the `UPDATE` leaves have a name twice. -/
def setProfileName (st : Store) (profileId : Nat) (profileName : String) : Option Store :=
  if h : ((renamedRows st.profiles profileId profileName).map ProfileRow.profileName).Nodup then
    some { st with profiles :=
      ⟨renamedRows st.profiles profileId profileName, st.profiles.nextId, h,
        by
          rw [renamedRows, List.map_map]
          convert st.profiles.address_nodup using 2
          funext p; simp only [Function.comp_apply]; split <;> rfl,
        fun p hp => by
          obtain ⟨q, hq, rfl⟩ := List.mem_map.mp hp
          split <;> exact st.profiles.id_lt q hq⟩ }
  else none

def deleteProfile (st : Store) (profileId : Nat) : Store :=
  { st with profiles :=
    ⟨st.profiles.rows.filter (·.profileId != profileId), st.profiles.nextId,
      st.profiles.name_nodup.sublist ((List.filter_sublist _).map _),
      st.profiles.address_nodup.sublist ((List.filter_sublist _).map _),
      fun p hp => st.profiles.id_lt p (List.mem_of_mem_filter hp)⟩ }

inductive ProfileOp
  | insert (now : Int) (p : SqueakProfile)
  | setFollowing (profileId : Nat) (following : Bool)
  | setUseCustomPrice (profileId : Nat) (useCustomPrice : Bool)
  | setCustomPriceMsat (profileId : Nat) (customPriceMsat : Int)
  | setName (profileId : Nat) (profileName : String)
  | delete (profileId : Nat)
  | setImage (profileId : Nat) (profileImage : Bytes)

/-- A write that raises leaves the store as it was. -/
def ProfileOp.apply (st : Store) : ProfileOp → Store
  | .insert now p => ((insertProfile st now p).map Prod.snd).getD st
  | .setFollowing profileId following => setProfileFollowing st profileId following
  | .setUseCustomPrice profileId useCustomPrice => setProfileUseCustomPrice st profileId useCustomPrice
  | .setCustomPriceMsat profileId customPriceMsat =>
    setProfileCustomPriceMsat st profileId customPriceMsat
  | .setName profileId profileName => (setProfileName st profileId profileName).getD st
  | .delete profileId => deleteProfile st profileId
  | .setImage profileId profileImage => setProfileImage st profileId profileImage

def runProfileOps (st : Store) (ops : List ProfileOp) : Store := ops.foldl ProfileOp.apply st

-- ---------------------------------------------------------------------------
-- Writes read back
-- ---------------------------------------------------------------------------

theorem nextId_not_mem_profileIds (t : ProfileTable) : t.nextId ∉ t.rows.map ProfileRow.profileId :=
  fun h => by
    obtain ⟨p, hp, he⟩ := List.mem_map.mp h
    exact absurd (t.id_lt p hp) (by omega)


theorem profileById_setWhere (st : Store) (profileId : Nat) (f : ProfileRow → ProfileRow)
    (hf : ∀ p, (f p).profileId = p.profileId ∧ (f p).profileName = p.profileName ∧
      (f p).address = p.address) (id : Nat) :
    ({ st with profiles := st.profiles.setWhere profileId f hf } : Store).profileById id =
      if id = profileId then (st.profileById id).map f else st.profileById id :=
  find?_map_update st.profiles.rows ProfileRow.profileId profileId f (fun p => (hf p).1) id

theorem getProfile_setWhere (st : Store) (profileId : Nat) (f : ProfileRow → ProfileRow)
    (hf : ∀ p, (f p).profileId = p.profileId ∧ (f p).profileName = p.profileName ∧
      (f p).address = p.address) (id : Nat) :
    getProfile { st with profiles := st.profiles.setWhere profileId f hf } id =
      if id = profileId then (st.profileById id).map (parseSqueakProfile ∘ f) else getProfile st id := by
  rw [getProfile, profileById_setWhere]
  split
  · rw [Option.map_map]
  · rfl

theorem profileById_deleteProfile (st : Store) (profileId id : Nat) :
    (deleteProfile st profileId).profileById id = if id = profileId then none else st.profileById id :=
  find?_filter_delete st.profiles.rows ProfileRow.profileId profileId id

theorem profileById_setProfileName {st st' : Store} {profileId : Nat} {profileName : String}
    (h : setProfileName st profileId profileName = some st') (id : Nat) :
    st'.profileById id = if id = profileId then (st.profileById id).map
      (fun p => { p with profileName := profileName }) else st.profileById id := by
  unfold setProfileName at h
  split at h
  · cases h
    exact find?_map_update st.profiles.rows ProfileRow.profileId profileId
      (fun p => { p with profileName := profileName }) (fun _ => rfl) id
  · cases h

theorem getProfile_profileWrites (st : Store) (profileId id : Nat) :
    (∀ following, getProfile (setProfileFollowing st profileId following) id =
      if id = profileId then (getProfile st id).map ({ · with following := following })
      else getProfile st id) ∧
    (∀ useCustomPrice, getProfile (setProfileUseCustomPrice st profileId useCustomPrice) id =
      if id = profileId then (getProfile st id).map ({ · with useCustomPrice := useCustomPrice })
      else getProfile st id) ∧
    (∀ customPriceMsat, getProfile (setProfileCustomPriceMsat st profileId customPriceMsat) id =
      if id = profileId then (getProfile st id).map ({ · with customPriceMsat := customPriceMsat })
      else getProfile st id) ∧
    (∀ profileImage, getProfile (setProfileImage st profileId profileImage) id =
      if id = profileId then (getProfile st id).map ({ · with profileImage := some profileImage })
      else getProfile st id) ∧
    (∀ profileName, getProfile ((ProfileOp.setName profileId profileName).apply st) id =
      if id = profileId ∧ (setProfileName st profileId profileName).isSome then
        (getProfile st id).map ({ · with profileName := profileName })
      else getProfile st id) ∧
    getProfile (deleteProfile st profileId) id = if id = profileId then none else getProfile st id := by
  have hmap : ∀ g : ProfileRow → ProfileRow, ∀ g' : SqueakProfile → SqueakProfile,
      parseSqueakProfile ∘ g = g' ∘ parseSqueakProfile →
      (st.profileById id).map (parseSqueakProfile ∘ g) = (getProfile st id).map g' := fun g g' hg => by
    rw [hg, getProfile, Option.map_map]
  refine ⟨fun _ => ?_, fun _ => ?_, fun _ => ?_, fun _ => ?_, fun profileName => ?_, ?_⟩
  iterate 4
    simp only [setProfileFollowing, setProfileUseCustomPrice, setProfileCustomPriceMsat, setProfileImage,
      getProfile_setWhere]
    exact if_congr Iff.rfl (hmap _ _ rfl) rfl
  · cases hname : setProfileName st profileId profileName with
    | none => simp [ProfileOp.apply, hname]
    | some st' =>
      simp only [ProfileOp.apply, hname, Option.getD_some, Option.isSome_some, and_true, getProfile,
        profileById_setProfileName hname]
      split
      · rw [Option.map_map, Option.map_map]; rfl
      · rfl
  · rw [getProfile, profileById_deleteProfile]
    split <;> rfl

theorem getProfile_insertProfile (st : Store) (now : Int) (p : SqueakProfile) :
    match insertProfile st now p with
    | none => p.profileName ∈ st.profiles.rows.map ProfileRow.profileName ∨
        p.address ∈ st.profiles.rows.map ProfileRow.address
    | some (id, st') =>
      let stored := some
        { p with
          profileId := some id, privateKey := ifTruthy p.privateKey, useCustomPrice := false,
          customPriceMsat := 0, profileImage := none }
      id = st.profiles.nextId ∧ getProfile st' id = stored ∧
        getProfileByAddress st' p.address = stored ∧ getProfileByName st' p.profileName = stored ∧
        ∀ id', id' ≠ id → getProfile st' id' = getProfile st id' := by
  unfold insertProfile
  by_cases hfree : p.profileName ∉ st.profiles.rows.map ProfileRow.profileName ∧
      p.address ∉ st.profiles.rows.map ProfileRow.address
  · rw [dif_pos hfree]
    dsimp only
    have hfind : ∀ {β : Type} [DecidableEq β] (key : ProfileRow → β) (k : β),
        k ∉ st.profiles.rows.map key → key (newProfileRow st.profiles.nextId now p) = k →
        (st.profiles.rows ++ [newProfileRow st.profiles.nextId now p]).find? (key · == k) =
          some (newProfileRow st.profiles.nextId now p) := fun key k hk hnew => by
      rw [List.find?_append, List.find?_eq_none.mpr fun q hq => by
        simpa using fun he => hk (List.mem_map.mpr ⟨q, hq, he⟩)]
      simp [hnew]
    refine ⟨rfl, ?_, ?_, ?_, fun id' hid' => ?_⟩
    · exact congrArg (Option.map parseSqueakProfile) (hfind _ _ (nextId_not_mem_profileIds st.profiles) rfl)
    · exact congrArg (Option.map parseSqueakProfile) (hfind _ _ hfree.2 rfl)
    · exact congrArg (Option.map parseSqueakProfile) (hfind _ _ hfree.1 rfl)
    · simp only [getProfile, Store.profileById, List.find?_append]
      simp [newProfileRow, Ne.symm hid']
  · rw [dif_neg hfree]
    rwa [not_and_or, not_not, not_not] at hfree

-- ---------------------------------------------------------------------------
-- Profile ids stay unique
-- ---------------------------------------------------------------------------

def ProfileIdsUnique (st : Store) : Prop := (st.profiles.rows.map ProfileRow.profileId).Nodup

instance (st : Store) : Decidable (ProfileIdsUnique st) :=
  inferInstanceAs (Decidable (List.Nodup _))

@[simp] theorem profileIds_setWhere (t : ProfileTable) (profileId : Nat) (f : ProfileRow → ProfileRow)
    (hf : ∀ p, (f p).profileId = p.profileId ∧ (f p).profileName = p.profileName ∧
      (f p).address = p.address) :
    (t.setWhere profileId f hf).rows.map ProfileRow.profileId = t.rows.map ProfileRow.profileId := by
  simp only [ProfileTable.setWhere, List.map_map]
  exact List.map_congr_left fun p _ => by simp only [Function.comp_apply]; split <;> simp only [(hf p).1]

@[simp] theorem profileIds_renamedRows (t : ProfileTable) (profileId : Nat) (profileName : String) :
    (renamedRows t profileId profileName).map ProfileRow.profileId = t.rows.map ProfileRow.profileId := by
  rw [renamedRows, List.map_map]
  exact List.map_congr_left fun p _ => by simp only [Function.comp_apply]; split <;> rfl

theorem ProfileIdsUnique.apply {st : Store} (h : ProfileIdsUnique st) (o : ProfileOp) :
    ProfileIdsUnique (o.apply st) := by
  cases o with
  | insert now p =>
    rw [ProfileOp.apply]
    cases hins : insertProfile st now p with
    | none => exact h
    | some r =>
      obtain ⟨-, hrows⟩ := insertProfile_eq_some hins
      rw [Option.map_some', Option.getD_some, ProfileIdsUnique, hrows]
      exact nodup_map_append_singleton h (nextId_not_mem_profileIds st.profiles)
  | setName profileId profileName =>
    rw [ProfileOp.apply, setProfileName]
    split
    · simpa [ProfileIdsUnique] using h
    · exact h
  | delete profileId => exact h.sublist ((List.filter_sublist _).map _)
  | setFollowing | setUseCustomPrice | setCustomPriceMsat | setImage =>
    simpa [ProfileIdsUnique, ProfileOp.apply, setProfileFollowing, setProfileUseCustomPrice,
      setProfileCustomPriceMsat, setProfileImage] using h

/-- Over every run of profile writes from a table with unique ids, the empty
one included, the ids stay unique. -/
theorem profileOps_keep_ids_unique {st : Store} (h : ProfileIdsUnique st) (ops : List ProfileOp) :
    ProfileIdsUnique (runProfileOps st ops) := by
  induction ops generalizing st with
  | nil => exact h
  | cons o ops ih => exact ih (h.apply o)

theorem profileIdsUnique_empty : ProfileIdsUnique Store.empty := List.nodup_nil

def twoProfilesOps : List ProfileOp :=
  [.insert 0 ⟨none, "alice", none, "a1", true, false, 0, none⟩,
    .insert 0 ⟨none, "bob", none, "a2", false, false, 0, none⟩]

/-- On a table with unique ids, a rename fails exactly when a profile has the
id and another profile has the name. -/
theorem setProfileName_eq_none_iff {st : Store} (h : ProfileIdsUnique st) (profileId : Nat)
    (profileName : String) :
    setProfileName st profileId profileName = none ↔
      (∃ p ∈ st.profiles.rows, p.profileId = profileId) ∧
        ∃ q ∈ st.profiles.rows, q.profileId ≠ profileId ∧ q.profileName = profileName := by
  have hrows : st.profiles.rows.Nodup := h.of_map _
  have hnone : setProfileName st profileId profileName = none ↔
      ¬ ((renamedRows st.profiles profileId profileName).map ProfileRow.profileName).Nodup := by
    unfold setProfileName; split <;> simp_all
  have hnames : (renamedRows st.profiles profileId profileName).map ProfileRow.profileName =
      st.profiles.rows.map fun p => if p.profileId = profileId then profileName else p.profileName := by
    rw [renamedRows, List.map_map]
    exact List.map_congr_left fun p _ => by simp only [Function.comp_apply]; split <;> rfl
  rw [hnone, hnames, List.nodup_map_iff_inj_on hrows]
  constructor
  · intro hfail
    by_contra hno
    refine hfail fun x hx y hy hxy => ?_
    by_cases hxi : x.profileId = profileId <;> by_cases hyi : y.profileId = profileId <;>
      simp only [hxi, hyi, if_true, if_false] at hxy
    · exact List.inj_on_of_nodup_map h hx hy (hxi.trans hyi.symm)
    · exact absurd ⟨⟨x, hx, hxi⟩, y, hy, hyi, hxy.symm⟩ hno
    · exact absurd ⟨⟨y, hy, hyi⟩, x, hx, hxi, hxy⟩ hno
    · exact List.inj_on_of_nodup_map st.profiles.name_nodup hx hy hxy
  · rintro ⟨⟨p, hp, hpi⟩, q, hq, hqi, hqn⟩ hinj
    have := hinj p hp q hq (by simp only [hpi, hqi, if_true, if_false, hqn])
    exact hqi (this ▸ hpi)

theorem twoProfiles_rename_taken :
    ProfileIdsUnique (runProfileOps Store.empty twoProfilesOps) ∧
      (setProfileName (runProfileOps Store.empty twoProfilesOps) 1 "bob" = none ↔
        (∃ p ∈ (runProfileOps Store.empty twoProfilesOps).profiles.rows, p.profileId = 1) ∧
          ∃ q ∈ (runProfileOps Store.empty twoProfilesOps).profiles.rows,
            q.profileId ≠ 1 ∧ q.profileName = "bob") :=
  ⟨by decide, setProfileName_eq_none_iff (by decide) 1 "bob"⟩

-- ---------------------------------------------------------------------------
-- Profile writes and the squeak listings
-- ---------------------------------------------------------------------------

/-- `profile_is_following` on the join row of a squeak by `address`: a profile
has the address and is followed. -/
def Store.follows (st : Store) (address : String) : Bool := (st.profileOf address).any (·.following)

theorem profileOf_map_rows {st st' : Store} (g : ProfileRow → ProfileRow)
    (hg : ∀ p, (g p).address = p.address) (hrows : st'.profiles.rows = st.profiles.rows.map g)
    (a : String) : st'.profileOf a = (st.profileOf a).map g := by
  rw [Store.profileOf, Store.profileOf, hrows, List.filter_map, List.head?_map, Function.comp_def]
  simp only [hg]

theorem profileOf_deleteProfile (st : Store) (profileId : Nat) (a : String) :
    (deleteProfile st profileId).profileOf a =
      (st.profileOf a).bind fun p => if p.profileId = profileId then none else some p := by
  have hmem : ∀ q, q ∈ (deleteProfile st profileId).profiles.rows ↔
      q ∈ st.profiles.rows ∧ q.profileId ≠ profileId := fun q => by simp [deleteProfile]
  cases h : st.profileOf a with
  | none => exact profileOf_eq_none.mpr fun q hq => profileOf_eq_none.mp h q ((hmem q).mp hq).1
  | some p =>
    obtain ⟨hp, rfl⟩ := profileOf_eq_some.mp h
    rw [Option.some_bind]
    split
    · refine profileOf_eq_none.mpr fun q hq hqa => ?_
      obtain ⟨hq, hqi⟩ := (hmem q).mp hq
      exact hqi (st.profiles.eq_of_address_eq hq hp hqa ▸ ‹p.profileId = profileId›)
    · exact profileOf_eq_some.mpr ⟨(hmem p).mpr ⟨hp, ‹_›⟩, rfl⟩

theorem profileOf_insertProfile {st st' : Store} {now : Int} {p : SqueakProfile} {id : Nat}
    (h : insertProfile st now p = some (id, st')) (a : String) :
    st'.profileOf a =
      if p.address = a then some (newProfileRow st.profiles.nextId now p) else st.profileOf a := by
  have hfree : p.address ∉ st.profiles.rows.map ProfileRow.address := by
    unfold insertProfile at h
    split at h
    · exact ‹_ ∧ _›.2
    · cases h
  obtain ⟨-, hrows⟩ := insertProfile_eq_some h
  split
  · subst_vars
    exact profileOf_eq_some.mpr ⟨hrows ▸ List.mem_append_right _ (List.mem_singleton_self _), rfl⟩
  · rw [Store.profileOf, Store.profileOf, hrows, List.filter_append]
    simp [newProfileRow, ‹¬p.address = a›]

theorem ProfileOp.apply_squeaks (st : Store) (o : ProfileOp) : (o.apply st).squeaks = st.squeaks := by
  cases o with
  | insert now p =>
    rw [ProfileOp.apply]
    cases hins : insertProfile st now p with
    | none => rfl
    | some r => exact (insertProfile_eq_some hins).1
  | setName profileId profileName =>
    rw [ProfileOp.apply, setProfileName]
    split <;> rfl
  | _ => rfl

/-- Which addresses each profile write leaves followed: `set_profile_following`
sets the flag of the profile with the id, `delete_profile` drops it, a successful
`insert_profile` adds the new profile's, and the other writes keep every
address as it was. -/
theorem follows_apply (st : Store) (o : ProfileOp) (a : String) :
    (o.apply st).follows a =
      match o with
      | .insert t q => if (insertProfile st t q).isSome ∧ q.address = a then q.following else st.follows a
      | .setFollowing profileId following =>
        (st.profileOf a).any fun p => if p.profileId = profileId then following else p.following
      | .delete profileId => (st.profileOf a).any fun p => p.profileId != profileId && p.following
      | _ => st.follows a := by
  have hkeep : ∀ st' : Store, ∀ g : ProfileRow → ProfileRow, (∀ p, (g p).address = p.address) →
      (∀ p, (g p).following = p.following) → st'.profiles.rows = st.profiles.rows.map g →
      st'.follows a = st.follows a := fun st' g hga hgf hrows => by
    rw [Store.follows, Store.follows, profileOf_map_rows g hga hrows]
    cases st.profileOf a <;> simp [hgf]
  cases o with
  | insert t q =>
    rw [ProfileOp.apply]
    cases hins : insertProfile st t q with
    | none => simp [hins]
    | some r =>
      obtain ⟨id, st'⟩ := r
      simp only [hins, Option.map_some', Option.getD_some, Option.isSome_some, true_and, Store.follows,
        profileOf_insertProfile hins]
      split <;> simp [newProfileRow]
  | setFollowing profileId following =>
    rw [ProfileOp.apply, setProfileFollowing, Store.follows, profileOf_map_rows _ (fun p => by split <;> rfl) rfl]
    cases st.profileOf a with
    | none => rfl
    | some p => by_cases hp : p.profileId = profileId <;> simp [hp]
  | setUseCustomPrice | setCustomPriceMsat | setImage =>
    exact hkeep _ _ (fun p => by split <;> rfl) (fun p => by split <;> rfl) rfl
  | setName profileId profileName =>
    rw [ProfileOp.apply, setProfileName]
    split
    · exact hkeep _ _ (fun p => by split <;> rfl) (fun p => by split <;> rfl) rfl
    · rfl
  | delete profileId =>
    rw [ProfileOp.apply, Store.follows, profileOf_deleteProfile]
    cases st.profileOf a with
    | none => rfl
    | some p => by_cases hp : p.profileId = profileId <;> simp [hp]

theorem squeakEntriesPage_hashes_congr {st st' : Store} (hsq : st'.squeaks = st.squeaks)
    {cond : JoinedRow → Bool}
    (hcond : ∀ s, cond (s, st'.profileOf s.authorAddress) = cond (s, st.profileOf s.authorAddress))
    (limit : Nat) (last : Option SqueakEntry) :
    (squeakEntriesPage st' cond limit last).map SqueakEntry.squeakHash =
      (squeakEntriesPage st cond limit last).map SqueakEntry.squeakHash := by
  simp only [squeakEntriesPage_eq, keysetPage_map_parse, hsq, hcond]
  rfl

/-- Profile writes touch no squeak. After one, every squeak listing lists the
squeaks it listed before, and so does the liked listing; the timeline does too unless the write changed
which addresses are followed, which only `set_profile_following`,
`delete_profile` and `insert_profile` do, as `follows_apply` says. -/
theorem profileOp_squeakListings (st : Store) (o : ProfileOp) (limit : Nat) (last : Option SqueakEntry)
    (now : Int) :
    (o.apply st).squeaks = st.squeaks ∧
    (∀ l : SqueakListing, (l ≠ .timeline ∨ ∀ a, (o.apply st).follows a = st.follows a) →
      (l.query (o.apply st) limit last).map SqueakEntry.squeakHash =
        (l.query st limit last).map SqueakEntry.squeakHash) ∧
    (getLikedSqueakEntries (o.apply st) now limit last).map SqueakEntry.squeakHash =
      (getLikedSqueakEntries st now limit last).map SqueakEntry.squeakHash := by
  have hsq := o.apply_squeaks st
  refine ⟨hsq, fun l hl => ?_, ?_⟩
  · have hquery : ∀ st, l.query st limit last = squeakEntriesPage st l.cond limit last := fun st => by
      cases l <;> rfl
    rw [hquery, hquery]
    refine squeakEntriesPage_hashes_congr hsq (fun s => ?_) limit last
    cases l with
    | timeline => exact hl.resolve_left (fun h => h rfl) s.authorAddress
    | _ => rfl
  · simp only [getLikedSqueakEntries_eq, keysetPage_map_parse, hsq]
    rfl

end Squeaknode
