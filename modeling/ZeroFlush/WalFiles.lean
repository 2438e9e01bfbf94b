import ZeroFlush.WalFormat
import ZeroFlush.FiniteMaps
import Mathlib.Data.List.Sort

/-! # The WAL directory

A file is its bytes together with the length of the part that has been synced. A crash keeps
of every file some prefix that contains the synced part. -/
namespace ZeroFlush.WalFiles
open FixedWidthCodec FiniteMaps

/-- The file `zf-wal-<part>-<gen>.log`. -/
abbrev FileId := ℕ × ℕ

instance : LawfulBEq FileId := inferInstance

structure File where
  data : Bytes
  synced : ℕ
  deriving DecidableEq, Repr

structure Env where
  files : Map FileId File

namespace Env

def empty : Env := ⟨∅⟩

def content (env : Env) (f : FileId) : Bytes := ((env.files.lookup f).map File.data).getD []

def syncedSize (env : Env) (f : FileId) : ℕ := ((env.files.lookup f).map File.synced).getD 0

def exists? (env : Env) (f : FileId) : Bool := (env.files.lookup f).isSome

/-- `NewWritableFile` truncates a file that exists. -/
def newWritableFile (env : Env) (f : FileId) : Env := ⟨env.files.insert f ⟨[], 0⟩⟩

/-- `ReopenWritableFile` keeps it. -/
def reopenWritableFile (env : Env) (f : FileId) : Env :=
  if env.exists? f then env else env.newWritableFile f

def modifyFile (env : Env) (f : FileId) (g : File → File) : Env :=
  match env.files.lookup f with
  | none => env
  | some file => ⟨env.files.insert f (g file)⟩

def appendFile (env : Env) (f : FileId) (bytes : Bytes) : Env :=
  env.modifyFile f fun file => { file with data := file.data ++ bytes }

def syncFile (env : Env) (f : FileId) : Env :=
  env.modifyFile f fun file => { file with synced := file.data.length }

def deleteFile (env : Env) (f : FileId) : Env := ⟨env.files.erase f⟩

/-- `ListFiles`: the files of the directory, sorted by partition and generation. -/
def listFiles (env : Env) : List FileId :=
  env.files.keys.insertionSort fun a b => a.1 < b.1 ∨ a.1 = b.1 ∧ a.2 ≤ b.2

/-- The machine stops: of the file `f` the first `cut f` bytes survive, and all synced ones. -/
def crash (env : Env) (cut : FileId → ℕ) : Env :=
  ⟨mapValues (fun f file =>
    let data := file.data.take (max (cut f) file.synced)
    ⟨data, data.length⟩) env.files⟩

@[simp] theorem content_empty (f : FileId) : empty.content f = [] := by simp [empty, content]

@[simp] theorem exists?_empty (f : FileId) : empty.exists? f = false := by
  simp [empty, exists?]

theorem content_of_not_exists {env : Env} {f : FileId} (h : env.exists? f = false) :
    env.content f = [] := by
  have hnone : env.files.lookup f = none := by simpa [exists?] using h
  simp [content, hnone]

theorem mem_listFiles {env : Env} {f : FileId} : f ∈ env.listFiles ↔ env.exists? f = true := by
  rw [listFiles, List.mem_insertionSort, ← AList.mem_keys, ← AList.lookup_isSome]
  rfl

theorem content_newWritableFile (env : Env) (f g : FileId) :
    (env.newWritableFile f).content g = if g = f then [] else env.content g := by
  simp only [newWritableFile, content, lookup_insert_eq]
  split_ifs <;> rfl

theorem exists?_newWritableFile (env : Env) (f g : FileId) :
    (env.newWritableFile f).exists? g = (decide (g = f) || env.exists? g) := by
  simp only [newWritableFile, exists?, lookup_insert_eq]
  split_ifs with h <;> simp [h]

@[simp] theorem content_reopenWritableFile (env : Env) (f g : FileId) :
    (env.reopenWritableFile f).content g = env.content g := by
  unfold reopenWritableFile
  split_ifs with h
  · rfl
  · rw [content_newWritableFile]
    split_ifs with hg
    · rw [hg, content_of_not_exists (by simpa using h)]
    · rfl

theorem exists?_reopenWritableFile (env : Env) (f g : FileId) :
    (env.reopenWritableFile f).exists? g = (decide (g = f) || env.exists? g) := by
  unfold reopenWritableFile
  split_ifs with h
  · by_cases hg : g = f <;> simp [hg, h]
  · exact exists?_newWritableFile env f g

@[simp] theorem exists?_modifyFile (env : Env) (f g : FileId) (u : File → File) :
    (env.modifyFile f u).exists? g = env.exists? g := by
  unfold modifyFile
  cases h : env.files.lookup f with
  | none => rfl
  | some file =>
    simp only [exists?, lookup_insert_eq]
    split_ifs with hg
    · subst hg
      simp [h]
    · rfl

@[simp] theorem exists?_appendFile (env : Env) (f g : FileId) (bytes : Bytes) :
    (env.appendFile f bytes).exists? g = env.exists? g := exists?_modifyFile ..

@[simp] theorem exists?_syncFile (env : Env) (f g : FileId) :
    (env.syncFile f).exists? g = env.exists? g := exists?_modifyFile ..

theorem content_appendFile {env : Env} {f : FileId} (hf : env.exists? f = true) (bytes : Bytes)
    (g : FileId) :
    (env.appendFile f bytes).content g =
      if g = f then env.content f ++ bytes else env.content g := by
  obtain ⟨file, hfile⟩ := Option.isSome_iff_exists.mp hf
  simp only [appendFile, modifyFile, hfile, content, lookup_insert_eq]
  split_ifs with h <;> simp

@[simp] theorem content_syncFile (env : Env) (f g : FileId) :
    (env.syncFile f).content g = env.content g := by
  unfold syncFile modifyFile
  cases h : env.files.lookup f with
  | none => rfl
  | some file =>
    simp only [content, lookup_insert_eq]
    split_ifs with hg
    · subst hg
      simp [h]
    · rfl

theorem content_deleteFile (env : Env) (f g : FileId) :
    (env.deleteFile f).content g = if g = f then [] else env.content g := by
  simp only [deleteFile, content, lookup_erase_eq]
  split_ifs <;> rfl

theorem exists?_deleteFile (env : Env) (f g : FileId) :
    (env.deleteFile f).exists? g = (!decide (g = f) && env.exists? g) := by
  simp only [deleteFile, exists?, lookup_erase_eq]
  split_ifs with h <;> simp [h]

@[simp] theorem exists?_crash (env : Env) (cut : FileId → ℕ) (f : FileId) :
    (env.crash cut).exists? f = env.exists? f := by
  simp [crash, exists?]

theorem content_crash (env : Env) (cut : FileId → ℕ) (f : FileId) :
    (env.crash cut).content f = (env.content f).take (max (cut f) (env.syncedSize f)) := by
  cases h : env.files.lookup f <;> simp [crash, content, syncedSize, h]

@[simp] theorem syncedSize_empty (f : FileId) : empty.syncedSize f = 0 := by
  simp [empty, syncedSize]

theorem syncedSize_of_not_exists {env : Env} {f : FileId} (h : env.exists? f = false) :
    env.syncedSize f = 0 := by
  have hnone : env.files.lookup f = none := by simpa [exists?] using h
  simp [syncedSize, hnone]

theorem syncedSize_newWritableFile (env : Env) (f g : FileId) :
    (env.newWritableFile f).syncedSize g = if g = f then 0 else env.syncedSize g := by
  simp only [newWritableFile, syncedSize, lookup_insert_eq]
  split_ifs <;> rfl

@[simp] theorem syncedSize_reopenWritableFile (env : Env) (f g : FileId) :
    (env.reopenWritableFile f).syncedSize g = env.syncedSize g := by
  unfold reopenWritableFile
  split_ifs with h
  · rfl
  · rw [syncedSize_newWritableFile]
    split_ifs with hg
    · rw [hg, syncedSize_of_not_exists (by simpa using h)]
    · rfl

@[simp] theorem syncedSize_appendFile (env : Env) (f g : FileId) (bytes : Bytes) :
    (env.appendFile f bytes).syncedSize g = env.syncedSize g := by
  unfold appendFile modifyFile
  cases h : env.files.lookup f with
  | none => rfl
  | some file =>
    simp only [syncedSize, lookup_insert_eq]
    split_ifs with hg
    · subst hg
      simp [h]
    · rfl

theorem syncedSize_syncFile (env : Env) (f g : FileId) :
    (env.syncFile f).syncedSize g = if g = f then (env.content f).length else env.syncedSize g := by
  unfold syncFile modifyFile
  cases h : env.files.lookup f with
  | none =>
    split_ifs with hg
    · subst hg
      simp [syncedSize, content, h]
    · rfl
  | some file =>
    simp only [syncedSize, content, lookup_insert_eq]
    split_ifs with hg
    · simp [h]
    · rfl

theorem syncedSize_deleteFile (env : Env) (f g : FileId) :
    (env.deleteFile f).syncedSize g = if g = f then 0 else env.syncedSize g := by
  simp only [deleteFile, syncedSize, lookup_erase_eq]
  split_ifs <;> rfl

/-- Whatever survives a crash is on disk for good. -/
theorem syncedSize_crash (env : Env) (cut : FileId → ℕ) (f : FileId) :
    (env.crash cut).syncedSize f = ((env.crash cut).content f).length := by
  cases h : env.files.lookup f <;> simp [crash, content, syncedSize, h]

end Env

end ZeroFlush.WalFiles
