import ClientStore.Proofs.Failures
import ClientStore.Proofs.Modes
import ClientStore.Seed

/-!
# Calls of the stores

Whatever the stores are asked to do with the files, they do it in a few steps: they make the root
and the sessions directory, they open one of their files, and they write into an open file. The last
of these leaves the shape of the world as it is. So a property of the shape that survives the other
steps survives every call, and any number of calls in any order; and it does not matter which of
them fail.

Deleting is the only call that takes something away, and it is looked at separately.

## Main definitions

* `StoreCall` — what the stores can be asked to do with the files.
* `StoreCall.runAll` — the world that some calls leave.
* `Layout.IsSteady` — a property that survives the steps.

## Main results

* `StoreCall.maintains` — such a property survives every call but a deletion.
* `SessionStore.maintains_delete` — it survives a deletion if it survives what is taken away.
* `StoreCall.hasMode_after` — no call changes the mode of a path.
-/

namespace ClientStore

open FileTree

/-! ### Writing into open files -/

namespace SessionWriter

theorem preserves_shape_send (sw : SessionWriter) (bytes : Bytes) :
    (sw.send bytes).Preserves World.shape :=
  .bind (Disk.preserves_shape_write _ _ _) fun _ => .pure _

theorem preserves_shape_write (sw : SessionWriter) (key : Text) (value : SettingValue) :
    (sw.write key value).Preserves World.shape := by
  refine .bind (.lift _) fun text => ?_
  rw [writeText]
  split
  · exact .throw _
  · split
    · exact .throw _
    · exact preserves_shape_send _ _

theorem preserves_shape_close (sw : SessionWriter) : sw.close.Preserves World.shape := by
  rw [close]
  split
  · exact .pure _
  · exact preserves_shape_send _ _

theorem preserves_shape_writeAll (sw : SessionWriter) (es : List (Text × SettingValue)) :
    (sw.writeAll es).Preserves World.shape := by
  induction es generalizing sw with
  | nil => exact .bind (preserves_shape_close sw) fun _ => .pure _
  | cons e es ih =>
    refine .bind (.attempt (preserves_shape_write sw e.1 e.2)) ?_
    rintro (f | sw')
    · exact .bind (preserves_shape_close sw) fun _ => .throw f
    · exact ih sw'

end SessionWriter

namespace Seed

theorem preserves_shape_writeFrom (l : Layout) (outlet : Outlet) (h : Handle) (call offset : Nat)
    (left : Bytes) : (writeFrom l outlet h call offset left).Preserves World.shape := by
  fun_induction writeFrom with
  | case1 => exact .pure _
  | case2 => exact .bind (StoreM.LeavesFiles.log _ _).preserves_shape fun _ => .pure _
  | case3 => exact .pure _
  | case4 call offset left _ n _ _ ih =>
    exact .bind (Disk.preserves_shape_write _ _ _) fun _ => .bind ih fun _ => .pure _

end Seed

theorem TrustFile.preserves_shape_addLine (k : HostKey) (handle : Handle) (line : Text) :
    (addLine k handle line).Preserves World.shape := by
  rw [addLine]
  split
  · exact .throw _
  · exact .bind (Disk.preserves_shape_append _ _) fun _ => (leavesFiles_report k).preserves_shape

/-! ### Steps -/

/-- The property survives the steps that the stores take. It is one of the shape; directories can be
made and files can be opened. -/
structure Layout.IsSteady (l : Layout) (P : World → Prop) : Prop where
  congr : ∀ w w', w.shape = w'.shape → P w → P w'
  ensureRoot : l.ensureRoot.Maintains P
  ensureSessions : l.ensureSessions.Maintains P
  openKept : ∀ p ∈ [l.hostKeys, l.seed], (Disk.openKept p Disk.privateFileMode).Maintains P
  openProfile : ∀ name path, l.session name = .ok path →
    (do l.ensureSessions; Disk.openEmptied path Disk.sharedFileMode : StoreM Handle).Maintains P

namespace Layout.IsSteady

variable {l : Layout} {P : World → Prop}

/-- The trust file and the seed are opened in the same way. -/
theorem openOrMake (h : l.IsSteady P) {p : FilePath} (hp : p ∈ [l.hostKeys, l.seed]) :
    (l.openOrMake p).Maintains P := by
  refine .onRefusal (h.openKept p hp) fun r => ?_
  split
  · exact .bind h.ensureRoot fun _ => h.openKept p hp
  · exact .throw _

theorem openForWrite {s : SessionStore} (h : s.layout.IsSteady P) (name : ProfileName) :
    (s.openForWrite name).Maintains P := by
  refine .lift_bind fun path hpath => ?_
  refine .bind (.onRefusal (h.openProfile name path hpath) fun _ => .throw _) fun handle => ?_
  exact ((StoreM.LeavesFiles.log _ _).bind fun _ => .pure _).preserves_shape.maintains h.congr

theorem record (h : l.IsSteady P) (k : HostKey) : (TrustFile.record l k).Maintains P := by
  refine .bind (.onRefusal (h.openOrMake (by simp)) fun _ => .throw _) fun handle => ?_
  exact .bind (.lift _) fun line =>
    (TrustFile.preserves_shape_addLine k handle line).maintains h.congr

theorem writeSeed (h : l.IsSteady P) (outlet : Seed.Outlet) (data : Bytes) :
    (Seed.write l outlet data).Maintains P := by
  refine .bind (.onRefusal (.bind (h.openOrMake (by simp)) fun _ => .pure _) fun r => ?_) ?_
  · exact ((StoreM.LeavesFiles.log _ _).bind fun _ => .pure _).preserves_shape.maintains h.congr
  · rintro (_ | handle)
    · exact .pure _
    · exact (Seed.preserves_shape_writeFrom l outlet handle 0 0 data).maintains h.congr

end Layout.IsSteady

/-! ### Calls -/

/-- What the stores can be asked to do with the files. A profile can be saved at once or bit by
bit. -/
inductive StoreCall where
  | ensureRoot
  | ensureSessions
  | openForWrite (name : ProfileName)
  | write (sw : SessionWriter) (key : Text) (value : SettingValue)
  | close (sw : SessionWriter)
  | save (name : ProfileName) (entries : List (Text × SettingValue))
  | delete (name : ProfileName)
  | record (k : HostKey)
  | writeSeed (outlet : Seed.Outlet) (data : Bytes)

namespace StoreCall

/-- Does what is asked. -/
def run (s : SessionStore) : StoreCall → StoreM Unit
  | ensureRoot => s.layout.ensureRoot
  | ensureSessions => s.layout.ensureSessions
  | openForWrite name => do
    let _ ← s.openForWrite name
  | write sw key value => do
    let _ ← sw.write key value
  | close sw => do
    let _ ← sw.close
  | save name entries => s.save name entries
  | delete name => s.delete name
  | record k => TrustFile.record s.layout k
  | writeSeed outlet data => do
    let _ ← Seed.write s.layout outlet data

/-- The world after some calls, one after the other, whether they fail or not. -/
def runAll (s : SessionStore) (calls : List StoreCall) (w : World) : World :=
  calls.foldl (fun w call => w.after (call.run s)) w

variable {s : SessionStore} {P : World → Prop}

/-- **A steady property survives every call**, as long as nothing is deleted. -/
theorem maintains (h : s.layout.IsSteady P) {call : StoreCall}
    (hdelete : ∀ name, call ≠ .delete name) : (call.run s).Maintains P := by
  cases call with
  | ensureRoot => exact h.ensureRoot
  | ensureSessions => exact h.ensureSessions
  | openForWrite name => exact .bind (h.openForWrite name) fun _ => .pure _
  | write sw key value =>
    exact .bind ((sw.preserves_shape_write key value).maintains h.congr) fun _ => .pure _
  | close sw => exact .bind (sw.preserves_shape_close.maintains h.congr) fun _ => .pure _
  | save name entries =>
    exact .bind (h.openForWrite name) fun sw =>
      (sw.preserves_shape_writeAll entries).maintains h.congr
  | delete name => exact absurd rfl (hdelete name)
  | record k => exact h.record k
  | writeSeed outlet data => exact .bind (h.writeSeed outlet data) fun _ => .pure _

/-- What survives every call survives any number of them. -/
theorem runAll_induction (h : ∀ call : StoreCall, (call.run s).Maintains P) {w : World} (hw : P w)
    (calls : List StoreCall) : P (runAll s calls w) := by
  induction calls generalizing w with
  | nil => exact hw
  | cons call calls ih => exact ih (h call w hw)

end StoreCall

/-- **A property survives a deletion** if it is one of the shape and survives what is taken away. -/
theorem SessionStore.maintains_delete {s : SessionStore} {P : World → Prop} {name : ProfileName}
    (hcongr : ∀ w w', w.shape = w'.shape → P w → P w')
    (hremove : ∀ path, s.layout.session name = .ok path → (Disk.remove path).Maintains P) :
    (s.delete name).Maintains P := by
  refine .lift_bind fun path hpath => .onRefusal (.bind (hremove path hpath) fun _ => ?_) fun r => ?_
  · exact (StoreM.LeavesFiles.log _ _).preserves_shape.maintains hcongr
  · split
    · exact .pure _
    · exact .throw _

/-! ### No call changes a mode -/

variable {w : World} {s : SessionStore} {p : FilePath} {m : Nat}

/-- **Everything keeps its mode**, whatever is made or opened. -/
theorem Layout.isSteady_keepsModes (hw : w.IsSound) (l : Layout) : l.IsSteady w.KeepsModes := by
  have hroot : l.ensureRoot.Maintains w.KeepsModes := fun u h =>
    h.trans (l.adds_ensureRoot (h.keeps.isSound hw)).keepsModes
  have hsessions : l.ensureSessions.Maintains w.KeepsModes := fun u h =>
    h.trans (adds_ensureSessions (h.keeps.isSound hw) l).keepsModes
  refine ⟨fun u v he h => h.trans (World.keepsModes_of_shape_eq he), hroot, hsessions, ?_, ?_⟩
  · intro p _
    refine Disk.maintains_change fun u handle v ho h => ?_
    exact h.trans (TrustFile.adds_of_openKept (h.keeps.isSound hw) ho).keepsModes
  · intro name path _
    refine .bind hsessions fun _ => Disk.maintains_change fun u handle v ho h => ?_
    rcases Disk.openEmptied_ok_cases ho with ⟨place, rfl⟩ | ⟨place, hf, rfl⟩
    · exact h.trans (World.keepsModes_of_shape_eq (Disk.shape_refill u place []))
    · exact h.trans (Disk.adds_create (h.keeps.isSound hw) hf _).keepsModes

/-- After a deletion no path has a mode that it did not have. -/
theorem SessionStore.hasMode_of_delete (hw : w.IsSound) {name : ProfileName}
    (h : (w.after (s.delete name)).HasMode p m) : w.HasMode p m := by
  let P (v : World) : Prop := v.IsSound ∧ ∀ p m, v.HasMode p m → w.HasMode p m
  have hcongr (u v : World) (he : u.shape = v.shape) (hu : P u) : P v :=
    ⟨(World.keepsModes_of_shape_eq he).keeps.isSound hu.1,
      fun p m hm => hu.2 p m ((World.hasMode_congr he hu.1).2 hm)⟩
  have hremove (path : FilePath) : (Disk.remove path).Maintains P := by
    refine Disk.maintains_change fun u _ v hr hu => ?_
    obtain ⟨place, rfl, -⟩ := Disk.remove_ok_cases hr
    exact ⟨(hasDirectory_prune _).2 hu.1, fun p m hm => hu.2 p m (Disk.hasMode_of_prune hm)⟩
  have hkept : (s.delete name).Maintains P := maintains_delete hcongr fun path _ => hremove path
  exact (hkept w ⟨hw, fun _ _ hm => hm⟩).2 p m h

/-- **No call changes the mode of a path.** Only a deletion can take it away. -/
theorem StoreCall.hasMode_after (hw : w.IsSound) (call : StoreCall) (hm : w.HasMode p m) :
    (w.after (call.run s)).HasMode p m ∨
      (∃ name, call = .delete name) ∧ ∀ m', ¬ (w.after (call.run s)).HasMode p m' := by
  by_cases hd : ∃ name, call = .delete name
  · obtain ⟨name, rfl⟩ := hd
    by_cases hgone : ∃ m', (w.after ((delete name).run s)).HasMode p m'
    · obtain ⟨m', hm'⟩ := hgone
      obtain rfl := (SessionStore.hasMode_of_delete hw hm').unique hm
      exact .inl hm'
    · exact .inr ⟨⟨name, rfl⟩, not_exists.1 hgone⟩
  · have hk := StoreCall.maintains (s.layout.isSteady_keepsModes hw) (not_exists.1 hd) w (.refl w)
    exact .inl (hk.hasMode hw hm)

end ClientStore
