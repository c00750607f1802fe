import Whispera.UserStore

/-! `CLIUpsertUser` takes a file that cannot be read for empty, does not check the next id, and only logs an
error of the write. -/

namespace Whispera
open List Option Table

def UsersFile.content (file : Option UsersFile) : UserPersist :=
  (file.bind (·.data)).getD { users := [], nextUserID := 0 }

namespace UserPersist
variable {p : UserPersist}

def DistinctIDs (p : UserPersist) : Prop := (p.users.map (·.id)).Nodup

def Names (p : UserPersist) (username : List Char) : Prop := ∃ u ∈ p.users, u.username = username

/-- The id that a process gives to the next user after it has loaded the file. -/
def freeID (p : UserPersist) : Int := if 1 < p.nextUserID then p.nextUserID else 1

theorem lookup_foldl_insert {l : List User} (hl : (l.map (·.id)).Nodup) (m : Map Int User) (i : Int) (u : User) :
    (l.foldl (fun m u => m.insert u.id u) m).lookup i = some u ↔
      (u ∈ l ∧ u.id = i) ∨ (i ∉ l.map (·.id) ∧ m.lookup i = some u) := by
  induction l generalizing m with
  | nil => simp
  | cons v l ih =>
    obtain ⟨hv, hl⟩ := nodup_cons.mp hl
    rw [foldl_cons, ih hl]
    rcases eq_or_ne i v.id with rfl | hne
    · rw [AList.lookup_insert]
      constructor
      · rintro (⟨hu, hid⟩ | ⟨-, hvu⟩)
        · exact absurd (List.mem_map.mpr ⟨u, hu, hid⟩) hv
        · cases hvu
          exact .inl ⟨mem_cons_self, rfl⟩
      · rintro (⟨hu, hid⟩ | ⟨hi, -⟩)
        · rcases mem_cons.mp hu with rfl | hu
          · exact .inr ⟨hv, rfl⟩
          · exact .inl ⟨hu, hid⟩
        · exact absurd mem_cons_self hi
    · rw [AList.lookup_insert_ne hne]
      have hmem : i ∉ (v :: l).map (·.id) ↔ i ∉ l.map (·.id) := by simp [hne]
      have hcons : (u ∈ v :: l ∧ u.id = i) ↔ (u ∈ l ∧ u.id = i) := by
        rw [mem_cons]
        constructor
        · rintro ⟨rfl | hu, hid⟩
          · exact absurd hid.symm hne
          · exact ⟨hu, hid⟩
        · exact fun h => ⟨.inr h.1, h.2⟩
      rw [hmem, hcons]

theorem lookup_fresh (hp : p.DistinctIDs) (i : Int) (u : User) :
    p.fresh.lookup i = some u ↔ u ∈ p.users ∧ u.id = i := by
  rw [fresh, lookup_foldl_insert hp]
  simp

end UserPersist

namespace UserMemory
variable {s : UserMemory} {p : UserPersist} {visit : List Int} {username : List Char}

/-- Users and next id are those of the file's content. -/
structure Loaded (s : UserMemory) (p : UserPersist) : Prop where
  users : s.users = p.fresh
  nextUserID : s.nextUserID = p.freeID

theorem loaded_apply (stat read : Bool) (file : Option UsersFile) :
    (({} : UserMemory).applyUsersFromFile stat read file).Loaded
      (if read then UsersFile.content file else { users := [], nextUserID := 0 }) := by
  have hnone : ({} : UserMemory).Loaded { users := [], nextUserID := 0 } := ⟨rfl, rfl⟩
  rcases file with - | ⟨- | p, modTime⟩
  · cases read <;> exact hnone
  · cases read <;> exact hnone
  · cases read
    · exact hnone
    · exact ⟨rfl, rfl⟩

theorem mem_snapshot (hvisit : visit.Perm s.users.keys) (u : User) :
    u ∈ (s.snapshot visit).users ↔ ∃ id, s.users.lookup id = some u := by
  rw [snapshot, mem_filterMap]
  constructor
  · rintro ⟨id, -, hid⟩
    exact ⟨id, hid⟩
  · rintro ⟨id, hid⟩
    refine ⟨id, hvisit.mem_iff.mpr ?_, hid⟩
    exact AList.mem_keys.mpr (AList.lookup_isSome.mp (by rw [hid]; rfl))

section Loaded
variable (hs : s.Loaded p) (hp : p.DistinctIDs) (hvisit : visit.Perm s.users.keys)
include hs hp

theorem Loaded.lookup (i : Int) (u : User) : s.users.lookup i = some u ↔ u ∈ p.users ∧ u.id = i := by
  rw [hs.users, UserPersist.lookup_fresh hp]

theorem Loaded.find_some {id : Int} (h : s.find visit username = some id) :
    ∃ u ∈ p.users, u.username = username ∧ u.id = id ∧ s.users.lookup id = some u := by
  rw [find] at h
  have hname := find?_some h
  rw [decide_eq_true_eq] at hname
  obtain ⟨u, hu, hun⟩ := map_eq_some_iff.mp hname
  obtain ⟨hmem, hid⟩ := (hs.lookup hp id u).mp hu
  exact ⟨u, hmem, hun, hid, hu⟩

include hvisit

theorem Loaded.find_none (h : s.find visit username = none) : ¬ p.Names username := by
  rintro ⟨u, hu, hun⟩
  have hl : s.users.lookup u.id = some u := (hs.lookup hp u.id u).mpr ⟨hu, rfl⟩
  have hmem : u.id ∈ visit := hvisit.mem_iff.mpr (AList.mem_keys.mpr (AList.lookup_isSome.mp (by rw [hl]; rfl)))
  have := find?_eq_none.mp h u.id hmem
  simp [hl, hun] at this

theorem Loaded.mem_snapshot (u : User) : u ∈ (s.snapshot visit).users ↔ u ∈ p.users := by
  rw [UserMemory.mem_snapshot hvisit]
  constructor
  · rintro ⟨id, hid⟩
    exact ((hs.lookup hp id u).mp hid).1
  · exact fun hu => ⟨u.id, (hs.lookup hp u.id u).mpr ⟨hu, rfl⟩⟩

end Loaded

theorem Loaded.mem_snapshot_insert (hs : s.Loaded p) (hp : p.DistinctIDs) {t : UserMemory} {id : Int} {v : User}
    (ht : t.users = s.users.insert id v) (hvisit : visit.Perm t.users.keys) (u : User) :
    u ∈ (t.snapshot visit).users ↔ u = v ∨ (u ∈ p.users ∧ u.id ≠ id) := by
  rw [UserMemory.mem_snapshot hvisit, ht]
  constructor
  · rintro ⟨i, hi⟩
    rcases eq_or_ne i id with rfl | hne
    · rw [AList.lookup_insert] at hi
      exact .inl (some.inj hi).symm
    · rw [AList.lookup_insert_ne hne] at hi
      obtain ⟨hu, rfl⟩ := (hs.lookup hp i u).mp hi
      exact .inr ⟨hu, hne⟩
  · rintro (rfl | ⟨hu, hne⟩)
    · exact ⟨id, AList.lookup_insert _⟩
    · exact ⟨u.id, by rw [AList.lookup_insert_ne hne]; exact (hs.lookup hp u.id u).mpr ⟨hu, rfl⟩⟩

end UserMemory

section Upsert
variable {p : UserPersist} {s : UserMemory} {username : List Char} {keys : Option UserKeys} {now : Int}
  {visit : List Int}

def UserPersist.newUser (p : UserPersist) (username : List Char) (k : UserKeys) (now : Int) : User where
  id := p.freeID
  username := username
  privateKey := k.privateKey
  publicKey := k.publicKey
  status := "active".toList
  createdAt := now

theorem UserMemory.Loaded.upsert (hs : s.Loaded p) (hp : p.DistinctIDs) (hvisit : visit.Perm s.users.keys) :
    (∃ u ∈ p.users, u.username = username ∧ (UserCommand.upsert username keys now).modify visit s =
      (s, .keys { privateKey := u.privateKey, publicKey := u.publicKey }, true)) ∨
    (¬ p.Names username ∧ keys = none ∧ (UserCommand.upsert username keys now).modify visit s = (s, .failed, false)) ∨
    (¬ p.Names username ∧ ∃ k, keys = some k ∧ (UserCommand.upsert username keys now).modify visit s =
      ({ s with users := s.users.insert p.freeID (p.newUser username k now), nextUserID := Exec.wrap (p.freeID + 1) },
        .keys k, true)) := by
  cases hfind : s.find visit username with
  | some id =>
    obtain ⟨u, hu, hun, -, hl⟩ := hs.find_some hp hfind
    refine .inl ⟨u, hu, hun, ?_⟩
    simp only [UserCommand.modify, hfind, bind_some, hl]
  | none =>
    have hno := hs.find_none hp hvisit hfind
    cases keys with
    | none => exact .inr (.inl ⟨hno, rfl, by simp only [UserCommand.modify, hfind, bind_none]⟩)
    | some k =>
      refine .inr (.inr ⟨hno, k, rfl, ?_⟩)
      simp only [UserCommand.modify, hfind, bind_none, UserPersist.newUser, hs.nextUserID]

end Upsert

end Whispera
