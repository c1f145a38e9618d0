import AmdModules.Url.Parse

/-!
# What every URL keeps

A URL is read from a text, alone or relative to another one, or gets a slash behind its path
(`Url.Had`). All of them have two things in common (`Url.Settled`): those of the special schemes
name a machine, though perhaps one without a name, and the path of a `file` URL starts with exactly
one slash. The readers hand each other parts of URLs, so each of them has a lemma of its own.
-/

set_option autoImplicit false

namespace AmdModules

namespace Url

/-- What the parts of a URL keep. -/
structure Settled (u : Url) : Prop where
  authority : (SchemeKind.ofScheme u.scheme).isSpecial = true → u.authority.isSome = true
  path : settlePath (SchemeKind.ofScheme u.scheme) u.path = u.path

/-- URLs that can be had. -/
inductive Had : Url → Prop
  | parse {text : List Char} {u : Url} (h : Url.parse text = .ok u) : Had u
  | join {base u : Url} {text : List Char} (hbase : Had base) (h : base.join text = .ok u) : Had u
  | withTrailingSlash {u : Url} (h : Had u) : Had u.withTrailingSlash

/-! ## Paths -/

theorem dropWhile_slash_dropWhile (path : List Char) :
    (path.dropWhile (· == '/')).dropWhile (· == '/') = path.dropWhile (· == '/') := by
  induction path with
  | nil => rfl
  | cons c path ih =>
    by_cases hc : c = '/'
    · simp [hc, ih]
    · simp [hc]

theorem settlePath_settlePath (kind : SchemeKind) (path : List Char) :
    settlePath kind (settlePath kind path) = settlePath kind path := by
  unfold settlePath
  split
  · rw [List.dropWhile_cons_of_pos (by rfl), dropWhile_slash_dropWhile]
  · rfl

theorem settlePath_extendPath (kind : SchemeKind) (path input : List Char) :
    settlePath kind (extendPath kind path input).1 = (extendPath kind path input).1 :=
  settlePath_settlePath kind _

theorem settlePath_of_ne_file {kind : SchemeKind} (h : kind ≠ .file) (path : List Char) :
    settlePath kind path = path :=
  if_neg h

/-! ## Readers -/

theorem Settled.withFragment {u : Url} (h : u.Settled) (cs : List Char) :
    (u.withFragment cs).Settled :=
  ⟨h.authority, h.path⟩

theorem Settled.withQueryAndFragment {u : Url} (h : u.Settled) (rest : List Char) :
    (u.withQueryAndFragment rest).Settled := by
  unfold Url.withQueryAndFragment
  have hbare : { u with query := none, fragment := none : Url }.Settled := ⟨h.authority, h.path⟩
  dsimp only
  split
  · split
    · exact ⟨h.authority, h.path⟩
    · exact ⟨h.authority, h.path⟩
  · exact hbare.withFragment _
  · exact hbare

/-- A path that was read may take the place of another one. -/
theorem Settled.withPath {u : Url} (h : u.Settled) (path input : List Char) :
    { u with path := (extendPath (SchemeKind.ofScheme u.scheme) path input).1 : Url }.Settled :=
  ⟨h.authority, settlePath_extendPath ..⟩

theorem settled_localFile {path : List Char} (h : settlePath .file path = path) :
    (localFile path).Settled :=
  ⟨fun _ => rfl, h⟩

/-- A URL that is put together from its parts, with a machine and a path that was read. -/
theorem settled_of_authority {u : Url} (hauthority : u.authority.isSome = true)
    (hpath : settlePath (SchemeKind.ofScheme u.scheme) u.path = u.path) : u.Settled :=
  ⟨fun _ => hauthority, hpath⟩

theorem settlePath_takeRootedPath (kind : SchemeKind) (cs : List Char) :
    settlePath kind (takeRootedPath kind cs).1 = (takeRootedPath kind cs).1 := by
  unfold takeRootedPath
  split
  · exact settlePath_extendPath ..
  · rename_i hkind
    refine settlePath_of_ne_file ?_ _
    rintro rfl
    exact hkind rfl

/-- What the steps of a reader gave when the reader succeeded. -/
theorem exists_of_bind_eq_ok {α β : Type} {p : Except UrlError α} {f : α → Except UrlError β}
    {b : β} (h : p >>= f = .ok b) : ∃ a, p = .ok a ∧ f a = .ok b := by
  cases p with
  | error e => cases h
  | ok a => exact ⟨a, rfl, h⟩

theorem settled_of_parseAuthority {scheme cs : List Char} {u : Url}
    (h : parseAuthority scheme cs = .ok u) : u.Settled := by
  unfold parseAuthority at h
  obtain ⟨⟨username, password, rest⟩, -, h⟩ := exists_of_bind_eq_ok h
  obtain ⟨⟨host, port, rest⟩, -, h⟩ := exists_of_bind_eq_ok h
  dsimp only at h
  split at h
  · obtain ⟨_, hthrow, -⟩ := exists_of_bind_eq_ok h
    cases hthrow
  · cases h
    refine Settled.withQueryAndFragment ?_ _
    exact settled_of_authority rfl (settlePath_takeRootedPath ..)

theorem settled_of_parseFileHost {cs : List Char} {u : Url} (h : parseFileHost cs = .ok u) :
    u.Settled := by
  have hwithout (cs : List Char) :
      (Url.withQueryAndFragment (localFile (extendPath .file ['/'] cs).1)
        (extendPath .file ['/'] cs).2).Settled :=
    Settled.withQueryAndFragment (settled_localFile (settlePath_extendPath ..)) _
  unfold parseFileHost at h
  dsimp only at h
  split at h
  · cases h
    exact hwithout cs
  · split at h
    · cases h
      exact hwithout _
    · obtain ⟨host, -, h⟩ := exists_of_bind_eq_ok h
      split at h
      · cases h
        exact hwithout _
      · cases h
        refine Settled.withQueryAndFragment ?_ _
        exact settled_of_authority rfl (settlePath_settlePath ..)

theorem settled_parseFileRoot (base : Option Url) (cs : List Char) :
    (parseFileRoot base cs).Settled := by
  -- whatever it starts from, it is a `file` URL
  have hread (authority : Authority) (path rest : List Char) :
      (Url.withQueryAndFragment
        { scheme := "file".toList, authority := some authority, path := settlePath .file path }
        rest).Settled :=
    Settled.withQueryAndFragment (settled_of_authority rfl (settlePath_settlePath ..)) _
  unfold parseFileRoot
  dsimp only
  split
  · exact hread ..
  · split
    · exact hread ..
    · split
      · exact hread ..
      · exact hread ..

theorem Settled.parseBeside {base : Url} (h : base.Settled) (cs : List Char) :
    (Url.parseBeside (SchemeKind.ofScheme base.scheme) base cs).Settled := by
  unfold Url.parseBeside
  split
  · exact ⟨h.authority, h.path⟩
  · exact h.withQueryAndFragment _
  · exact h.withFragment _
  · exact (h.withPath _ _).withQueryAndFragment _

theorem settled_of_parseFile {base : Option Url} {cs : List Char} {u : Url}
    (hbase : ∀ b, base = some b → b.Settled ∧ SchemeKind.ofScheme b.scheme = .file)
    (h : parseFile base cs = .ok u) : u.Settled := by
  have hfromRoot (cs : List Char) : (parseFile.fromRoot cs).Settled :=
    Settled.withQueryAndFragment (settled_localFile (settlePath_extendPath ..)) _
  have hbeside {cs : List Char} (h : parseFile.beside base cs = .ok u) : u.Settled := by
    cases base with
    | none =>
      cases h
      exact hfromRoot cs
    | some b =>
      obtain ⟨hsettled, hfile⟩ := hbase b rfl
      unfold parseFile.beside at h
      dsimp only at h
      split at h
      · cases h
        exact hfromRoot cs
      · cases h
        exact hfile ▸ hsettled.parseBeside cs
  unfold parseFile at h
  split at h
  · split at h
    · exact settled_of_parseFileHost h
    · split at h
      · cases h
        exact settled_parseFileRoot ..
      · exact hbeside h
  · split at h
    · cases h
      exact settled_parseFileRoot ..
    · exact hbeside h
  · exact hbeside h

theorem Settled.of_parseRelative {base u : Url} {cs : List Char} (hbase : base.Settled)
    (h : parseRelative base cs = .ok u) : u.Settled := by
  unfold parseRelative at h
  dsimp only at h
  split at h
  · split at h
    · split at h
      · exact settled_of_parseAuthority h
      · cases h
        exact (hbase.withPath _ _).withQueryAndFragment _
    · cases h
      exact hbase.parseBeside _
  · cases h
    exact hbase.parseBeside _

theorem settled_of_parseOther {scheme cs : List Char} {u : Url}
    (hscheme : SchemeKind.ofScheme scheme = .other) (h : parseOther scheme cs = .ok u) :
    u.Settled := by
  have hother (path : List Char) :
      ({ scheme, authority := none, path } : Url).Settled :=
    ⟨fun h => by simp [hscheme, SchemeKind.isSpecial] at h,
      settlePath_of_ne_file (by simp [hscheme]) _⟩
  unfold parseOther at h
  split at h
  · exact settled_of_parseAuthority h
  · cases h
    exact (hother _).withQueryAndFragment _
  · cases h
    exact (hother _).withQueryAndFragment _

theorem settled_of_parseWithScheme {base : Option Url} {scheme cs : List Char} {u : Url}
    (hbase : ∀ b, base = some b → b.Settled) (h : parseWithScheme base scheme cs = .ok u) :
    u.Settled := by
  unfold parseWithScheme at h
  split at h
  · rename_i hscheme
    refine settled_of_parseFile (fun b hb => ?_) h
    obtain ⟨hb, hsame⟩ := Option.filter_eq_some_iff.mp hb
    exact ⟨hbase b hb, by rw [of_decide_eq_true hsame, hscheme]⟩
  · split at h
    · split at h
      · exact (hbase _ rfl).of_parseRelative h
      · exact settled_of_parseAuthority h
    · exact settled_of_parseAuthority h
  · rename_i hscheme
    exact settled_of_parseOther hscheme h

theorem settled_of_parseFrom {base : Option Url} {text : List Char} {u : Url}
    (hbase : ∀ b, base = some b → b.Settled) (h : parseFrom base text = .ok u) : u.Settled := by
  unfold parseFrom at h
  dsimp only at h
  split at h
  · exact settled_of_parseWithScheme hbase h
  · split at h
    · cases h
    · rename_i b
      have hb := hbase b rfl
      split at h
      · cases h
        exact hb.withFragment _
      · split at h
        · cases h
        · split at h
          · rename_i hfile
            refine settled_of_parseFile (fun b' hb' => ?_) h
            cases hb'
            exact ⟨hb, hfile⟩
          · exact hb.of_parseRelative h

theorem Settled.withTrailingSlash {u : Url} (h : u.Settled) : u.withTrailingSlash.Settled := by
  unfold Url.withTrailingSlash
  split
  · exact h
  · unfold setPath
    split
    · rename_i hrootless
      -- a URL without a root names no machine, so it is of no special scheme
      have hother : (SchemeKind.ofScheme u.scheme).isSpecial ≠ true := by
        intro hspecial
        have hnone : u.authority.isNone = true := (Bool.and_eq_true_iff.mp hrootless).1
        have hsome := h.authority hspecial
        rw [Option.isNone_iff_eq_none.mp hnone] at hsome
        cases hsome
      have hfile : SchemeKind.ofScheme u.scheme ≠ .file := fun heq => hother (by rw [heq]; rfl)
      have hpath (path : List Char) : ({ u with path } : Url).Settled :=
        ⟨fun hspecial => absurd hspecial hother, settlePath_of_ne_file hfile _⟩
      split
      · exact hpath _
      · exact hpath _
    · exact h.withPath _ _

/-- **What every URL keeps**, however it was had. -/
theorem Had.settled {u : Url} (h : u.Had) : u.Settled := by
  induction h with
  | parse h => exact settled_of_parseFrom (by simp) h
  | join hbase h ih =>
    refine settled_of_parseFrom (fun b hb => ?_) h
    cases hb
    exact ih
  | withTrailingSlash h ih => exact ih.withTrailingSlash

end Url

end AmdModules
