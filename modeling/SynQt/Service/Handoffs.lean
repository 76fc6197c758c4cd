import SynQt.Service.Mesh

/-! One session elevated again and again on one edge, and who can still follow its old ids:
that edge while the store's echoes come back to it, the store, and the other edges. -/
namespace SynQt
open Lib SessionManager Option List
universe u

/-- One elevation: the id it replaced, the one it issued, and when. -/
structure Link where
  from_ : QByteArray
  to_ : QByteArray
  atMs : Int
  deriving DecidableEq

/-- The links lead from `first` to `current`, each from where the one before it leads. -/
def Linked : QByteArray → List Link → QByteArray → Prop
  | first, [], current => first = current
  | first, l :: links, current => l.from_ = first ∧ Linked l.to_ links current

namespace Linked

private theorem append_iff {first current : QByteArray} {links links' : List Link} :
    Linked first (links ++ links') current ↔
      ∃ mid, Linked first links mid ∧ Linked mid links' current := by
  induction links generalizing first with
  | nil => simp [Linked]
  | cons l links ih => simp [Linked, ih, and_assoc]

private theorem ids_eq {first current : QByteArray} {links : List Link} (h : Linked first links current) :
    first :: links.map Link.to_ = links.map Link.from_ ++ [current] := by
  induction links generalizing first with
  | nil => simpa [Linked] using h
  | cons l links ih =>
    obtain ⟨rfl, hl⟩ := h
    simp [← ih hl]

theorem unique {first p q : QByteArray} {links : List Link} (h : Linked first links p)
    (h' : Linked first links q) : p = q := by
  induction links generalizing first with
  | nil => exact h.symm.trans h'
  | cons l links ih => exact ih h.2 h'.2

end Linked

inductive Follows : List Link → List StoreMessage → Prop where
  | nil : Follows [] []
  | cons (l : Link) (scope : QString) (identity : QVariantMap) (createdMs : Int) {links : List Link}
      {tail : List StoreMessage} : Follows links tail →
      Follows (l :: links) (.sessionUpserted l.to_ scope identity createdMs ::
        .sessionRotated l.from_ l.to_ :: .sessionRemoved l.from_ :: tail)

theorem Follows.snoc {links : List Link} {tail : List StoreMessage} (h : Follows links tail) (l : Link)
    (scope : QString) (identity : QVariantMap) (createdMs : Int) :
    Follows (links ++ [l]) (tail ++ [.sessionUpserted l.to_ scope identity createdMs,
      .sessionRotated l.from_ l.to_, .sessionRemoved l.from_]) := by
  induction h with
  | nil => exact .cons l scope identity createdMs .nil
  | cons l' scope' identity' createdMs' _ ih => exact .cons l' scope' identity' createdMs' ih

structure Distinct (first : QByteArray) (links : List Link) : Prop where
  nodup : (first :: links.map Link.to_).Nodup
  given : ∀ id ∈ first :: links.map Link.to_, id ≠ []

namespace Distinct
variable {first current : QByteArray} {links : List Link}

private theorem nodup_from (hd : Distinct first links) (hl : Linked first links current) :
    (links.map Link.from_).Nodup ∧ current ∉ links.map Link.from_ := by
  have h := hd.nodup
  rw [hl.ids_eq, nodup_append] at h
  exact ⟨h.1, fun hc => h.2.2 current hc current (by simp) rfl⟩

private theorem link_ne {older newer : List Link} {l : Link} (hd : Distinct first (older ++ l :: newer))
    (hl : Linked first (older ++ l :: newer) current) :
    l.from_ ≠ [] ∧ l.to_ ≠ [] ∧ l.from_ ≠ l.to_ ∧ l.from_ ∉ older.map Link.from_ := by
  obtain ⟨mid, hold, hmid, hnew⟩ := Linked.append_iff.mp hl
  have hfrom : l.from_ ∈ first :: older.map Link.to_ := by
    rw [hold.ids_eq, hmid]
    simp
  have hids : first :: (older ++ l :: newer).map Link.to_ =
      (first :: older.map Link.to_) ++ l.to_ :: newer.map Link.to_ := by simp
  have hnodup := hd.nodup
  rw [hids, nodup_append] at hnodup
  have hgiven := hd.given
  rw [hids] at hgiven
  refine ⟨hgiven _ (mem_append_left _ hfrom), hgiven l.to_ (by simp),
    hnodup.2.2 _ hfrom _ (by simp), fun hmem => ?_⟩
  have hfn := (hd.nodup_from hl).1
  rw [map_append, map_cons, nodup_append] at hfn
  exact hfn.2.2 _ hmem _ (by simp) rfl

end Distinct

/-- What a table that has applied the elevations `done` holds of them: the newest one's
hand-off, and older ones only past their grace. -/
structure Applied (m : SessionManager) (now : Int) (done : List Link) : Prop where
  keys : ∀ k e, m.rotations.find k = some e → k ∈ done.map Link.from_
  back : ∀ id r, m.sessions.find id = some r →
    r.rotatedFrom = [] ∨ ∃ l ∈ done, l.from_ = r.rotatedFrom ∧ l.to_ = id
  newest : ∀ older l, done = older ++ [l] →
    (∃ e, m.rotations.find l.from_ = some e ∧ e.to_ = l.to_ ∧ l.atMs ≤ e.atMs) ∧
      ∀ o ∈ older, SessionManager.rotationGraceMs < now - o.atMs

def Holds (m : SessionManager) (id : QByteArray) : Prop := (m.sessions.find id).isSome

/-- Where a table stands in the announcements of a chain: which elevations it has applied,
which are still to come, and what is on its way. -/
inductive Behind (m : SessionManager) (first : QByteArray) :
    List Link → List Link → List StoreMessage → Prop where
  | born (scope : QString) (identity : QVariantMap) (createdMs : Int) {todo : List Link}
      {tail : List StoreMessage} : Follows todo tail →
      Behind m first [] todo (.sessionUpserted first scope identity createdMs :: tail)
  | level {done todo : List Link} {tail : List StoreMessage} {tip : QByteArray} :
      Linked first done tip → Holds m tip → Follows todo tail → Behind m first done todo tail
  | stored {done todo : List Link} {l : Link} {tail : List StoreMessage} :
      Holds m l.from_ → Holds m l.to_ → Follows todo tail →
      Behind m first done (l :: todo) (.sessionRotated l.from_ l.to_ :: .sessionRemoved l.from_ :: tail)
  | moved {done todo : List Link} {l : Link} {tail : List StoreMessage} :
      Holds m l.from_ → Holds m l.to_ → Follows todo tail →
      Behind m first (done ++ [l]) todo (.sessionRemoved l.from_ :: tail)

/-- A table that follows the chain through the announcements still on their way to it. -/
def Replica (m : SessionManager) (now : Int) (first : QByteArray) (links : List Link)
    (coming : List StoreMessage) : Prop :=
  ∃ done todo, links = done ++ todo ∧ Behind m first done todo coming ∧ Applied m now done

/-- No hand-off in its grace leads to `id`. -/
def Unreached (m : SessionManager) (now : Int) (id : QByteArray) : Prop :=
  ∀ entry ∈ m.rotations.entries, now - entry.2.atMs ≤ SessionManager.rotationGraceMs → entry.2.to_ ≠ id
deriving Decidable

namespace Applied
variable {m : SessionManager} {now : Int} {done : List Link}

section
variable (h : Applied m now done)
include h

private theorem upsert (token : QByteArray) (scope : QString) (identity : QVariantMap)
    (createdMs : Int) :
    Applied (m.applyUpsert token scope identity createdMs).manager now done where
  keys k e he := h.keys k e (by simpa [applyUpsert] using he)
  back id r hr := by
    simp only [applyUpsert, insertRecord_sessions, Hash.find_insert] at hr
    split at hr
    · cases hr
      exact .inl rfl
    · exact h.back id r hr
  newest older l hd := by simpa [applyUpsert] using h.newest older l hd

theorem rotate {l : Link} (ht : m.TakesRotation l.from_ l.to_)
    (hat : l.atMs ≤ now) (hun : Unreached m now l.from_) (htip : ∀ older d, done = older ++ [d] → d.to_ = l.from_) :
    Applied (m.applyRotation now l.from_ l.to_).manager now (done ++ [l]) where
  keys k e he := by
    rw [applyRotation_rotations] at he
    split at he
    · rename_i hk
      simp [hk.2]
    · exact map_append ▸ mem_append_left _ (h.keys k e he)
  back id r hr := by
    rw [applyRotation_sessions] at hr
    split at hr
    · rename_i hid
      obtain ⟨r', hr', rfl⟩ := map_eq_some_iff.mp hr
      exact .inr ⟨l, by simp, rfl, hid.2.symm⟩
    · rcases h.back id r hr with hb | ⟨l', hl', hb⟩
      · exact .inl hb
      · exact .inr ⟨l', mem_append_left _ hl', hb⟩
  newest older l' hd := by
    obtain ⟨rfl, rfl⟩ : done = older ∧ l = l' := by simpa using hd
    refine ⟨⟨⟨l.to_, now⟩, by rw [applyRotation_rotations, if_pos ⟨ht, rfl⟩], rfl, hat⟩, ?_⟩
    intro o ho
    rcases eq_nil_or_concat done with rfl | ⟨front, d, rfl⟩
    · cases ho
    rw [concat_eq_append] at h ho htip
    obtain ⟨⟨e, he, hto, hle⟩, hold⟩ := h.newest front d rfl
    rcases mem_append.mp ho with ho | ho
    · exact hold o ho
    · -- the newest of them still led to where this elevation starts, so its grace has run out
      obtain rfl : o = d := by simpa using ho
      by_contra hgrace
      exact hun (o.from_, e) ((Hash.mem_entries _ _ _).mpr he) (by simp only; omega)
        (hto.trans (htip front o rfl))

theorem remove {token : QByteArray}
    (hkeep : ∀ older l, done = older ++ [l] → ∀ r, m.sessions.find token = some r → r.rotatedFrom ≠ l.from_) :
    Applied (m.applyRemove token).manager now done where
  keys k e he := h.keys k e ((applyRemove_within token).rotations k e he)
  back id r hr := h.back id r ((applyRemove_within token).sessions id r hr)
  newest older l hd := by
    obtain ⟨⟨e, he, hto, hle⟩, hold⟩ := h.newest older l hd
    refine ⟨⟨e, ?_, hto, hle⟩, hold⟩
    unfold applyRemove
    split
    · exact he
    · rename_i r hr
      have hne := hkeep older l hd r hr
      simp only [removeRecord, dropRotationTo_lookup]
      rw [if_neg (fun hk => hne hk.2.symm)]
      exact he

theorem later (ms : Nat) : Applied m (now + ms) done where
  keys := h.keys
  back := h.back
  newest older l hd := by
    obtain ⟨hn, hold⟩ := h.newest older l hd
    refine ⟨hn, fun o ho => ?_⟩
    have := hold o ho
    omega

end

end Applied

namespace Replica
variable {m : SessionManager} {now : Int} {first current : QByteArray} {links : List Link}
  {coming : List StoreMessage}

theorem later (h : Replica m now first links coming) (ms : Nat) : Replica m (now + ms) first links coming := by
  obtain ⟨done, todo, hlinks, hb, ha⟩ := h
  exact ⟨done, todo, hlinks, hb, ha.later ms⟩

theorem announce (h : Replica m now first links coming) (l : Link) (scope : QString)
    (identity : QVariantMap) (createdMs : Int) :
    Replica m now first (links ++ [l]) (coming ++ [.sessionUpserted l.to_ scope identity createdMs,
      .sessionRotated l.from_ l.to_, .sessionRemoved l.from_]) := by
  obtain ⟨done, todo, rfl, hb, ha⟩ := h
  refine ⟨done, todo ++ [l], append_assoc .., ?_, ha⟩
  cases hb with
  | born scope' identity' createdMs' hf => exact .born _ _ _ (hf.snoc l scope identity createdMs)
  | level hl hm hf => exact .level hl hm (hf.snoc l scope identity createdMs)
  | stored hm hm' hf => exact .stored hm hm' (hf.snoc l scope identity createdMs)
  | moved hm hm' hf => exact .moved hm hm' (hf.snoc l scope identity createdMs)

theorem receive {message : StoreMessage} (h : Replica m now first links (message :: coming))
    (hl : Linked first links current) (hd : Distinct first links) (hat : ∀ l ∈ links, l.atMs ≤ now)
    (hun : ∀ from_ to_, message = .sessionRotated from_ to_ → Unreached m now from_) :
    message.Takes m ∧ Replica (message.receive m now).manager now first links coming := by
  obtain ⟨done, todo, rfl, hb, ha⟩ := h
  cases hb with
  | born scope identity createdMs hf =>
    refine ⟨trivial, [], todo, rfl, .level rfl ?_ hf, ha.upsert first scope identity createdMs⟩
    simp [Holds, StoreMessage.receive, applyUpsert]
  | @level _ _ _ tip hdone hm hf =>
    cases hf with
    | @cons l scope identity createdMs todo tail hf =>
      obtain ⟨mid, hmid, hfrom, -⟩ := Linked.append_iff.mp hl
      have htip : l.from_ = tip := hfrom.trans (hmid.unique hdone)
      refine ⟨trivial, done, l :: todo, rfl, .stored ?_ ?_ hf, ha.upsert l.to_ scope identity createdMs⟩
      · have hne : m.sessions.find l.from_ ≠ none := by
          rw [htip]
          exact isSome_iff_ne_none.mp hm
        exact isSome_iff_ne_none.mpr (StoreMessage.receive_lookup_none now
          (.sessionUpserted l.to_ scope identity createdMs) hne (by simp))
      · simp [Holds, StoreMessage.receive, applyUpsert]
  | @stored _ todo l _ hm hm' hf =>
    obtain ⟨hf0, ht0, hne, hnew⟩ := hd.link_ne hl
    have hnone : m.rotations.find l.from_ = none := by
      by_contra hsome
      obtain ⟨e, he⟩ := ne_none_iff_exists'.mp hsome
      exact hnew (ha.keys _ _ he)
    have htakes : m.TakesRotation l.from_ l.to_ := ⟨hf0, ht0, hne, hnone⟩
    refine ⟨htakes, done ++ [l], todo, by simp, .moved ?_ ?_ hf,
      ha.rotate htakes (hat l (by simp)) (hun _ _ rfl) ?_⟩
    · exact isSome_iff_ne_none.mpr (StoreMessage.receive_lookup_none now
        (.sessionRotated l.from_ l.to_) (isSome_iff_ne_none.mp hm) (by simp))
    · exact isSome_iff_ne_none.mpr (StoreMessage.receive_lookup_none now
        (.sessionRotated l.from_ l.to_) (isSome_iff_ne_none.mp hm') (by simp))
    · rintro older d rfl
      obtain ⟨mid, hmid, hfrom, -⟩ := Linked.append_iff.mp hl
      obtain ⟨_, _, _, hto⟩ := Linked.append_iff.mp hmid
      rw [hfrom]
      exact hto
  | @moved older _ l _ hm hm' hf =>
    have hl' : Linked first (older ++ l :: todo) current := by simpa using hl
    have hd' : Distinct first (older ++ l :: todo) := by simpa using hd
    obtain ⟨-, -, hne, -⟩ := hd'.link_ne hl'
    obtain ⟨mid, hmid, -⟩ := Linked.append_iff.mp hl
    obtain ⟨mid', hmid', hfrom, rfl⟩ := Linked.append_iff.mp hmid
    refine ⟨hm, older ++ [l], todo, rfl, .level hmid ?_ hf, ha.remove ?_⟩
    · exact isSome_iff_ne_none.mpr (StoreMessage.receive_lookup_none now
        (.sessionRemoved l.from_) (isSome_iff_ne_none.mp hm')
        (by simpa using hne))
    · rintro older' l' he r hr hback
      obtain ⟨rfl, rfl⟩ : older = older' ∧ l = l' := by simpa using he
      -- a record points back at a link that leads to it, and no link leads to where it starts
      rcases ha.back l.from_ r hr with hnil | ⟨d, hdmem, hdfrom, hdto⟩
      · rw [hnil] at hback
        have hgiven : l.from_ ≠ [] := (hd'.link_ne hl').1
        exact hgiven hback.symm
      · have hdl : d = l := by
          have hnodup : ((older ++ [l]).map Link.from_).Nodup := by
            have := (hd.nodup_from hl).1
            rw [map_append, nodup_append] at this
            exact this.1
          exact inj_on_of_nodup_map hnodup hdmem (by simp) (hdfrom.trans hback)
        subst hdl
        exact hne hdto.symm

private theorem follows_of_level (h : Replica m now first links []) (hl : Linked first links current) {l : Link}
    (hmem : l ∈ links) (hgrace : now - l.atMs ≤ rotationGraceMs)
    (hlive : m.isLive now current) : m.rotationOf now l.from_ = current := by
  obtain ⟨done, todo, rfl, hb, ha⟩ := h
  cases hb with
  | level hdone _ hf =>
    cases hf
    rw [append_nil] at hl hmem
    rcases eq_nil_or_concat done with rfl | ⟨older, d, rfl⟩
    · cases hmem
    rw [concat_eq_append] at hl hmem ha
    obtain ⟨⟨e, he, hto, hle⟩, hold⟩ := ha.newest older d rfl
    rcases mem_append.mp hmem with hmem | hmem
    · have := hold l hmem
      omega
    · obtain rfl : l = d := by simpa using hmem
      obtain ⟨_, _, _, hcur⟩ := Linked.append_iff.mp hl
      have hec : e.to_ = current := hto.trans hcur
      have hin : ¬ rotationGraceMs < now - e.atMs := by omega
      simp [SessionManager.rotationOf, he, hin, hec, hlive]

end Replica

structure ChainRun (ι : Type u) where
  mesh : Mesh ι
  links : List Link
  current : QByteArray

inductive ChainOp (ι : Type u) where
  | elevate (fresh : QByteArray) (scope : QString) (identity : QVariantMap)
  | deliverUp
  | deliverDown (i : ι)
  | advance (ms : Nat)

namespace ChainRun
variable {ι : Type u} [DecidableEq ι] {origin : ι} {first : QByteArray}

def start (origin : ι) (defaultScope : QString) (ttlMinutes maximum now : Int)
    (inUse : QByteArray → Bool) (first : QByteArray) (scope : QString) (identity : QVariantMap) :
    ChainRun ι where
  mesh := (Mesh.start defaultScope ttlMinutes maximum now).perform origin
    (.createSession inUse first scope identity)
  links := []
  current := first

/-- An elevation of an id the edge does not know leaves the chain where it was. -/
def step (origin : ι) (s : ChainRun ι) : ChainOp ι → ChainRun ι
  | .elevate fresh scope identity =>
    let issued := ((s.mesh.edge origin).setScope s.mesh.now fresh s.current scope identity .keep).2
    let mesh := s.mesh.perform origin (.setScope fresh s.current scope identity .keep)
    if issued.isEmpty then { s with mesh := mesh }
    else ⟨mesh, s.links ++ [⟨s.current, issued, s.mesh.now⟩], issued⟩
  | .deliverUp => { s with mesh := s.mesh.deliverUp origin }
  | .deliverDown i => { s with mesh := s.mesh.deliverDown i }
  | .advance ms => { s with mesh := s.mesh.step (.advance ms) }

def Admitted (s : ChainRun ι) : ChainOp ι → Prop
  | .elevate fresh _ _ => fresh ≠ [] ∧ fresh ∉ s.mesh.named
  | _ => True

/-- Every hand-off in its grace that leads to `id` is the one the record of `id` points
back at. -/
def SoleHead (m : SessionManager) (now : Int) (id : QByteArray) : Prop :=
  ∀ entry ∈ m.rotations.entries, now - entry.2.atMs ≤ SessionManager.rotationGraceMs →
    entry.2.to_ = id → (m.sessions.find id).map (·.rotatedFrom) = some entry.1
deriving Decidable

def Extends (m : SessionManager) (now : Int) : Option StoreMessage → Prop
  | some (.sessionRotated from_ _) => Unreached m now from_
  | _ => True

/-- The edge that elevates moves every hand-off it holds on the session, and no other table
is asked to move one. -/
def Sound (origin : ι) (s : ChainRun ι) : ChainOp ι → Prop
  | .elevate _ _ _ => SoleHead (s.mesh.edge origin) s.mesh.now s.current
  | .deliverUp => Extends s.mesh.entity s.mesh.now ((s.mesh.up origin).head?.map StoreCall.change)
  | .deliverDown i => i ≠ origin → Extends (s.mesh.edge i) s.mesh.now (s.mesh.down i).head?
  | .advance _ => True

/-- Every id the session had, in its grace, is answered with the id it has now: where it is
elevated at any time, elsewhere once everything has arrived. -/
def Followed (origin : ι) (s : ChainRun ι) : Prop :=
  ∀ l ∈ s.links, s.mesh.now - l.atMs ≤ SessionManager.rotationGraceMs →
    ((s.mesh.edge origin).isLive s.mesh.now s.current →
      (s.mesh.edge origin).rotationOf s.mesh.now l.from_ = s.current) ∧
    (s.mesh.up origin = [] →
      (s.mesh.entity.isLive s.mesh.now s.current →
        s.mesh.entity.rotationOf s.mesh.now l.from_ = s.current) ∧
      ∀ i, i ≠ origin → s.mesh.down i = [] → (s.mesh.edge i).isLive s.mesh.now s.current →
        (s.mesh.edge i).rotationOf s.mesh.now l.from_ = s.current)

/-- An announcement that names a replaced id where it says one was replaced or removed. -/
def Old (links : List Link) : StoreMessage → Prop
  | .sessionUpserted _ _ _ _ => True
  | .sessionRemoved token => token ∈ links.map Link.from_
  | .sessionRotated from_ _ => from_ ∈ links.map Link.from_

theorem Old.mono {links : List Link} {message : StoreMessage} (h : Old links message) (l : Link) :
    Old (links ++ [l]) message := by
  cases message with
  | sessionUpserted => trivial
  | sessionRemoved token | sessionRotated from_ to_ =>
    simp only [Old, map_append]
    exact mem_append_left _ h

/-- The table of the edge that elevates: it holds the hand-off of every elevation, and what
an echo puts back there points back at nothing. -/
structure AtOrigin (m : SessionManager) (now : Int) (links : List Link) (current : QByteArray) : Prop where
  held : ∀ l ∈ links, ∃ e, m.rotations.find l.from_ = some e ∧ e.atMs = l.atMs ∧
    (now - l.atMs ≤ SessionManager.rotationGraceMs → e.to_ = current)
  blank : ∀ id r, m.sessions.find id = some r → id ≠ current → r.rotatedFrom = []

namespace AtOrigin
variable {m : SessionManager} {now : Int} {links : List Link} {current : QByteArray}

section
variable (h : AtOrigin m now links current)
include h

theorem later (ms : Nat) : AtOrigin m (now + ms) links current := by
  refine ⟨fun l hl => ?_, h.blank⟩
  obtain ⟨e, he, hat, hto⟩ := h.held l hl
  exact ⟨e, he, hat, fun hg => hto (by omega)⟩

theorem receive {message : StoreMessage} (hold : Old links message)
    (hcur : current ∉ links.map Link.from_) :
    AtOrigin (message.receive m now).manager now links current := by
  cases message with
  | sessionUpserted token scope identity createdMs =>
    refine ⟨by simpa [StoreMessage.receive, applyUpsert] using h.held, fun id r hr hne => ?_⟩
    simp only [StoreMessage.receive, applyUpsert, insertRecord_sessions,
      Hash.find_insert] at hr
    split at hr
    · cases hr
      rfl
    · exact h.blank id r hr hne
  | sessionRemoved token =>
    refine ⟨fun l hl => ?_, fun id r hr hne => h.blank id r
      ((applyRemove_within token).sessions id r hr) hne⟩
    obtain ⟨e, he, hat, hto⟩ := h.held l hl
    refine ⟨e, ?_, hat, hto⟩
    simp only [StoreMessage.receive, applyRemove]
    split
    · exact he
    · rename_i r hr
      have hne : token ≠ current := fun heq => hcur (heq ▸ hold)
      simp only [removeRecord, dropRotationTo_lookup]
      rw [if_neg (fun hk => hk.1 (h.blank token r hr hne))]
      exact he
  | sessionRotated from_ to_ =>
    have hnot : ¬ m.TakesRotation from_ to_ := fun ht => by
      obtain ⟨l, hl, rfl⟩ := mem_map.mp hold
      obtain ⟨e, he, -⟩ := h.held l hl
      simp [ht.2.2.2] at he
    simpa only [StoreMessage.receive, applyRotation_of_not hnot] using h

theorem elevate {old : SessionRecord}
    (hold : m.sessions.find current = some old) (hsole : SoleHead m now current)
    (hcur : current ∉ links.map Link.from_) {fresh : QByteArray} (scope : QString)
    (identity : QVariantMap) :
    AtOrigin (m.setScope now fresh current scope identity .keep).1.manager now
      (links ++ [⟨current, fresh, now⟩]) fresh where
  held l hl := by
    rw [setScope_keep_rotations hold]
    rcases mem_append.mp hl with hl | hl
    · have hne : l.from_ ≠ current := fun heq => hcur (heq ▸ mem_map_of_mem hl)
      obtain ⟨e, he, hat, hto⟩ := h.held l hl
      rw [if_neg hne]
      by_cases hk : l.from_ = old.rotatedFrom
      · rw [if_pos hk, he]
        exact ⟨{ e with to_ := fresh }, rfl, hat, fun _ => rfl⟩
      · rw [if_neg hk]
        refine ⟨e, he, hat, fun hg => absurd ?_ hk⟩
        have := hsole (l.from_, e) ((Hash.mem_entries _ _ _).mpr he) (by simp only; omega) (hto hg)
        simpa [hold] using this.symm
    · obtain rfl : l = ⟨current, fresh, now⟩ := by simpa using hl
      exact ⟨⟨fresh, now⟩, by simp, rfl, fun _ => rfl⟩
  blank id r hr hne := by
    rw [(setScope_of_lookup hold now fresh scope identity .keep).2.1, if_neg hne] at hr
    split at hr
    · cases hr
    · rename_i hid
      exact h.blank id r hr hid

end

end AtOrigin

structure Inv (origin : ι) (first : QByteArray) (s : ChainRun ι) : Prop where
  linked : Linked first s.links s.current
  distinct : Distinct first s.links
  named : ∀ id ∈ first :: s.links.map Link.to_, id ∈ s.mesh.named
  past : ∀ l ∈ s.links, l.atMs ≤ s.mesh.now
  remote : (s.mesh.edge origin).remote = true
  atOrigin : AtOrigin (s.mesh.edge origin) s.mesh.now s.links s.current
  echoes : ∀ message ∈ s.mesh.down origin ++ (s.mesh.up origin).map StoreCall.change, Old s.links message
  entity : Replica s.mesh.entity s.mesh.now first s.links ((s.mesh.up origin).map StoreCall.change)
  edges : ∀ i, i ≠ origin → Replica (s.mesh.edge i) s.mesh.now first s.links
    (s.mesh.down i ++ (s.mesh.up origin).map StoreCall.change)

namespace Inv
variable {s : ChainRun ι}

section
variable (h : Inv origin first s)
include h

private theorem elevate_unheld (hold : (s.mesh.edge origin).sessions.find s.current = none)
    (fresh : QByteArray) (scope : QString) (identity : QVariantMap) :
    Inv origin first (s.step origin (.elevate fresh scope identity)) := by
  have hnop : s.step origin (.elevate fresh scope identity) =
      { s with mesh := s.mesh.perform origin (.setScope fresh s.current scope identity .keep) } := by
    simp [step, setScope_of_none hold]
  have hedge (k : ι) : (s.mesh.perform origin (.setScope fresh s.current scope identity .keep)).edge k =
      s.mesh.edge k := by
    rw [Mesh.perform_edge]
    split <;> simp_all [EdgeOp.perform]
  have hup (k : ι) : (s.mesh.perform origin (.setScope fresh s.current scope identity .keep)).up k =
      s.mesh.up k := by
    rw [Mesh.perform_up]
    split <;> simp_all [EdgeOp.perform]
  rw [hnop]
  refine ⟨h.linked, h.distinct, fun id hid => mem_append_right _ (h.named id hid), h.past, ?_, ?_, ?_,
    ?_, fun i hi => ?_⟩
  · rw [hedge]; exact h.remote
  · rw [hedge]; exact h.atOrigin
  · rw [hup]; exact h.echoes
  · rw [hup]; exact h.entity
  · rw [hup, hedge]; exact h.edges i hi

theorem elevate {fresh : QByteArray} (hf : fresh ≠ [] ∧ fresh ∉ s.mesh.named)
    (scope : QString) (identity : QVariantMap)
    (hsole : SoleHead (s.mesh.edge origin) s.mesh.now s.current) :
    Inv origin first (s.step origin (.elevate fresh scope identity)) := by
  cases hold : (s.mesh.edge origin).sessions.find s.current with
  | none => exact h.elevate_unheld hold fresh scope identity
  | some old =>
    obtain ⟨hr, -, hc⟩ := setScope_of_lookup hold s.mesh.now fresh scope identity .keep
    have hcur := (h.distinct.nodup_from h.linked).2
    let l : Link := ⟨s.current, fresh, s.mesh.now⟩
    have hstep : s.step origin (.elevate fresh scope identity) =
        ⟨s.mesh.perform origin (.setScope fresh s.current scope identity .keep), s.links ++ [l], fresh⟩ := by
      simp [step, hr, hf.1, l]
    have hup : (s.mesh.perform origin (.setScope fresh s.current scope identity .keep)).up origin =
        s.mesh.up origin ++ [putCall ((s.mesh.edge origin).elevated s.mesh.now fresh
          s.current old scope identity .keep), .rotateSession s.current fresh, .removeSession s.current] := by
      rw [Mesh.perform_up, if_pos rfl]
      simp [EdgeOp.perform, hc, storeCalls, h.remote]
    have hids : first :: (s.links ++ [l]).map Link.to_ = (first :: s.links.map Link.to_) ++ [fresh] := by
      simp [l]
    rw [hstep]
    refine ⟨Linked.append_iff.mpr ⟨s.current, h.linked, rfl, rfl⟩, ⟨?_, ?_⟩, ?_, ?_, ?_, ?_, ?_, ?_, ?_⟩
    · rw [hids, nodup_append]
      refine ⟨h.distinct.nodup, by simp, fun a ha b hb => ?_⟩
      obtain rfl : b = fresh := by simpa using hb
      exact fun heq => hf.2 (heq ▸ h.named a ha)
    · rw [hids]
      intro id hid
      rcases mem_append.mp hid with hid | hid
      · exact h.distinct.given id hid
      · obtain rfl : id = fresh := by simpa using hid
        exact hf.1
    · change ∀ id ∈ first :: (s.links ++ [l]).map Link.to_, id ∈ _
      rw [hids]
      intro id hid
      rcases mem_append.mp hid with hid | hid
      · exact mem_append_right _ (h.named id hid)
      · obtain rfl : id = fresh := by simpa using hid
        exact mem_append_left _ (by simp [EdgeOp.ids])
    · intro l' hl'
      rcases mem_append.mp hl' with hl' | hl'
      · exact h.past l' hl'
      · obtain rfl : l' = l := by simpa using hl'
        exact Int.le_refl _
    · simp only [Mesh.perform_edge, if_true]
      exact (EdgeOp.perform_settings _ _ _).2.trans h.remote
    · simp only [Mesh.perform_edge, if_true]
      exact h.atOrigin.elevate hold hsole hcur scope identity
    · rw [hup]
      intro message hm
      rw [map_append, ← append_assoc] at hm
      rcases mem_append.mp hm with hm | hm
      · exact (h.echoes message hm).mono l
      · simp only [map_cons, map_nil, mem_cons, not_mem_nil, or_false] at hm
        rcases hm with rfl | rfl | rfl
        · trivial
        · simp [Old, StoreCall.change, l]
        · simp [Old, StoreCall.change, l]
    · rw [hup, map_append]
      exact h.entity.announce l _ _ _
    · intro i hi
      simp only [Mesh.perform_edge, if_neg hi]
      rw [hup, map_append, ← append_assoc]
      exact (h.edges i hi).announce l _ _ _

theorem deliverUp (hext : Extends s.mesh.entity s.mesh.now ((s.mesh.up origin).head?.map StoreCall.change)) :
    Inv origin first (s.step origin .deliverUp) := by
  rcases s.mesh.deliverUp_cases origin with heq | ⟨call, rest, hup, hedge, hnow, hnamed, hentity, hups, hdowns⟩
  · simpa only [step, heq] using h
  have hcoming : (s.mesh.up origin).map StoreCall.change = call.change :: rest.map StoreCall.change := by
    rw [hup]; rfl
  have hrep := h.entity
  rw [hcoming] at hrep
  obtain ⟨htakes, hnext⟩ := hrep.receive h.linked h.distinct h.past (by
    rintro from_ to_ he
    simpa [hup, he, Extends] using hext)
  have hfor := StoreMessage.forwarded_of_takes s.mesh.now htakes
  have hline (i : ι) : (s.mesh.deliverUp origin).down i ++ ((s.mesh.deliverUp origin).up origin).map StoreCall.change =
      s.mesh.down i ++ (s.mesh.up origin).map StoreCall.change := by
    rw [hdowns, hfor, hups, if_pos rfl, hcoming, append_assoc]
    rfl
  refine ⟨h.linked, h.distinct, ?_, ?_, ?_, ?_, ?_, ?_, fun i hi => ?_⟩
  · simpa only [step, hnamed] using h.named
  · simpa only [step, hnow] using h.past
  · simpa only [step, hedge] using h.remote
  · simpa only [step, hedge, hnow] using h.atOrigin
  · simpa only [step, hline] using h.echoes
  · simpa only [step, hentity, hnow, hups, if_true] using hnext
  · simpa only [step, hedge, hnow, hline] using h.edges i hi

theorem deliverDown (i : ι)
    (hext : i ≠ origin → Extends (s.mesh.edge i) s.mesh.now (s.mesh.down i).head?) :
    Inv origin first (s.step origin (.deliverDown i)) := by
  rcases s.mesh.deliverDown_cases i with heq | ⟨message, rest, hdown, hentity, hnow, hnamed, hup, hedges, hdowns⟩
  · simpa only [step, heq] using h
  have hcur := (h.distinct.nodup_from h.linked).2
  refine ⟨h.linked, h.distinct, ?_, ?_, ?_, ?_, ?_, ?_, fun k hk => ?_⟩
  · simpa only [step, hnamed] using h.named
  · simpa only [step, hnow] using h.past
  · simp only [step, hedges]
    split
    · rename_i hio
      subst hio
      simpa using h.remote
    · exact h.remote
  · simp only [step, hedges, hnow]
    split
    · rename_i hio
      subst hio
      exact h.atOrigin.receive (h.echoes message (by simp [hdown])) hcur
    · exact h.atOrigin
  · intro message' hm
    simp only [step, hup, hdowns] at hm
    refine h.echoes message' ?_
    split at hm
    · rename_i hio
      subst hio
      rw [hdown]
      exact mem_cons_of_mem _ hm
    · exact hm
  · simpa only [step, hentity, hnow, hup] using h.entity
  · have hrep := h.edges k hk
    simp only [step, hedges, hdowns, hnow, hup]
    split
    · rename_i hki
      subst hki
      rw [hdown, cons_append] at hrep
      refine (hrep.receive h.linked h.distinct h.past ?_).2
      rintro from_ to_ rfl
      simpa [hdown, Extends] using hext hk
    · exact hrep

theorem step {op : ChainOp ι} (hop : s.Admitted op ∧ s.Sound origin op) :
    Inv origin first (s.step origin op) := by
  obtain ⟨hadm, hsound⟩ := hop
  cases op with
  | elevate fresh scope identity => exact h.elevate hadm scope identity hsound
  | deliverUp => exact h.deliverUp hsound
  | deliverDown i => exact h.deliverDown i hsound
  | advance ms =>
    refine ⟨h.linked, h.distinct, h.named, fun l hl => ?_, h.remote, h.atOrigin.later ms, h.echoes,
      h.entity.later ms, fun i hi => (h.edges i hi).later ms⟩
    have := h.past l hl
    change l.atMs ≤ s.mesh.now + ms
    omega

omit [DecidableEq ι] in
theorem followed : s.Followed origin := by
  intro l hl hgrace
  refine ⟨fun hlive => ?_, fun hup => ⟨fun hlive => ?_, fun i hi hdown hlive => ?_⟩⟩
  · obtain ⟨e, he, hat, hto⟩ := h.atOrigin.held l hl
    have hin : ¬ rotationGraceMs < s.mesh.now - e.atMs := by omega
    simp [SessionManager.rotationOf, he, hin, hto hgrace, hlive]
  · have hrep := h.entity
    rw [hup] at hrep
    exact hrep.follows_of_level h.linked hl hgrace hlive
  · have hrep := h.edges i hi
    rw [hup, hdown] at hrep
    exact hrep.follows_of_level h.linked hl hgrace hlive

end

theorem start (origin : ι) (defaultScope : QString) (ttlMinutes maximum now : Int)
    (inUse : QByteArray → Bool) {first : QByteArray} (hf : first ≠ []) (scope : QString)
    (identity : QVariantMap) :
    Inv origin first
      (ChainRun.start origin defaultScope ttlMinutes maximum now inUse first scope identity) := by
  let empty : SessionManager :=
    ((make defaultScope ttlMinutes).setMaximumSessions maximum).attachRemote
  obtain ⟨hc, kept, hw, hm⟩ := createSession_of_empty (m := empty) rfl rfl now inUse first
    scope identity
  have hnorot (k : QByteArray) : empty.rotations.find k = none := Hash.find_empty k
  have hnosess (k : QByteArray) : empty.sessions.find k = none := Hash.find_empty k
  let mesh : Mesh ι := Mesh.start defaultScope ttlMinutes maximum now
  have hup : (mesh.perform origin (.createSession inUse first scope identity)).up origin =
      [putCall (empty.minted now first scope identity)] := by
    rw [Mesh.perform_up, if_pos rfl]
    exact hc
  have hedge : (mesh.perform origin (.createSession inUse first scope identity)).edge origin =
      kept.insertRecord (empty.minted now first scope identity) := by
    rw [Mesh.perform_edge, if_pos rfl]
    exact hm
  have fresh (m : SessionManager) (hr : ∀ k, m.rotations.find k = none) (hs : ∀ k, m.sessions.find k = none) :
      Applied m now [] :=
    ⟨fun k e he => by simp [hr] at he, fun id r h => by simp [hs] at h, fun older l h => by simp at h⟩
  refine ⟨rfl, ⟨by simp [ChainRun.start], ?_⟩, ?_, ?_, ?_, ?_, ?_, ?_, fun i hi => ?_⟩
  · intro id hid
    obtain rfl : id = first := by simpa [ChainRun.start] using hid
    exact hf
  · intro id hid
    obtain rfl : id = first := by simpa [ChainRun.start] using hid
    exact mem_append_left _ (by simp [EdgeOp.ids])
  · intro l hl
    cases hl
  · have hremote : (kept.insertRecord (empty.minted now first scope identity)).remote = true := by
      rw [insertRecord_remote, hw.remote]
      rfl
    exact hedge ▸ hremote
  · refine ⟨fun l hl => absurd hl not_mem_nil, fun id r hr hne => ?_⟩
    have hne' : id ≠ first := hne
    have hr' : (kept.insertRecord (empty.minted now first scope identity)).sessions.find id = some r :=
      hedge ▸ hr
    simp only [insertRecord_sessions, Hash.find_insert, minted, if_neg hne'] at hr'
    have hnone := hw.sessions id r hr'
    simp [hnosess] at hnone
  · intro message hmess
    simp only [ChainRun.start] at hmess
    rw [hup] at hmess
    obtain rfl : message = (putCall (empty.minted now first scope identity)).change := by
      simpa [Mesh.perform, Mesh.start, mesh] using hmess
    trivial
  · refine ⟨[], [], rfl, ?_, fresh _ (fun k => Hash.find_empty k) (fun k => Hash.find_empty k)⟩
    simp only [ChainRun.start]
    rw [hup]
    exact .born _ _ _ .nil
  · refine ⟨[], [], rfl, ?_, ?_⟩
    · simp only [ChainRun.start]
      rw [hup]
      exact .born _ _ _ .nil
    · simp only [ChainRun.start, Mesh.perform_edge, if_neg hi]
      exact fresh _ (fun k => Hash.find_empty k) (fun k => Hash.find_empty k)

end Inv

instance (m : SessionManager) (now : Int) : (message : Option StoreMessage) → Decidable (Extends m now message)
  | some (.sessionRotated from_ _) => inferInstanceAs (Decidable (Unreached m now from_))
  | none | some (.sessionUpserted ..) | some (.sessionRemoved _) => .isTrue trivial
instance (s : ChainRun ι) : (op : ChainOp ι) → Decidable (s.Admitted op)
  | .elevate fresh _ _ => inferInstanceAs (Decidable (fresh ≠ [] ∧ fresh ∉ s.mesh.named))
  | .deliverUp | .deliverDown _ | .advance _ => .isTrue trivial
instance (s : ChainRun ι) : (op : ChainOp ι) → Decidable (s.Sound origin op)
  | .elevate _ _ _ => inferInstanceAs (Decidable (SoleHead (s.mesh.edge origin) s.mesh.now s.current))
  | .deliverUp => inferInstanceAs (Decidable
      (Extends s.mesh.entity s.mesh.now ((s.mesh.up origin).head?.map StoreCall.change)))
  | .deliverDown i => inferInstanceAs (Decidable (i ≠ origin → Extends (s.mesh.edge i) s.mesh.now (s.mesh.down i).head?))
  | .advance _ => .isTrue trivial

/-- The chain is followed in every run in which each elevation finds no hand-off on the
session but the one its record points back at, and no rotation that reaches another table
starts where a hand-off in its grace leads. -/
theorem chain_followed (origin : ι) (defaultScope : QString) (ttlMinutes maximum now : Int)
    (inUse : QByteArray → Bool) {first : QByteArray} (hf : first ≠ [])
    (scope : QString) (identity : QVariantMap) (ops : List (ChainOp ι))
    (h : Each (step origin) (fun s op => s.Admitted op ∧ s.Sound origin op)
      (start origin defaultScope ttlMinutes maximum now inUse first scope identity) ops) :
    Followed origin (run (step origin)
      (start origin defaultScope ttlMinutes maximum now inUse first scope identity) ops) :=
  (h.invariant (Inv origin first) (fun _ _ hi hop => hi.step hop)
    (Inv.start origin defaultScope ttlMinutes maximum now inUse hf scope identity)).followed

/-- Two elevations before any echo, the store and the other edge hearing of the second after
the grace of the first, and a third elevation. -/
def elevatedTwice : List (ChainOp Bool) :=
  [.elevate [2] "user" [], .elevate [3] "moderator" []] ++
  [.deliverUp, .deliverUp, .deliverUp, .deliverUp] ++ List.replicate 4 (.deliverDown true) ++
  [.advance (10 * 60 * 1000 + 1)] ++ [.deliverUp, .deliverUp, .deliverUp] ++
  List.replicate 3 (.deliverDown true) ++ [.elevate [4] "admin" []]

def minted : ChainRun Bool := start false "anonymous" 720 100000 0 (fun _ => false) [1] "" []

theorem chain_followed_elevatedTwice : Followed false (run (step false) minted elevatedTwice) := by
  have hminted : ([1] : QByteArray) ≠ [] := by decide
  exact chain_followed false "anonymous" 720 100000 0 (fun _ => false) hminted "" [] elevatedTwice (by decide +kernel)

def elevatedThrice : List (ChainOp Bool) :=
  [.elevate [2] "user" [], .elevate [3] "moderator" [], .elevate [4] "admin" []]

def elevatedAcrossEcho : List (ChainOp Bool) :=
  [.elevate [2] "user" [], .deliverUp, .deliverUp, .deliverDown false, .deliverDown false,
    .elevate [3] "moderator" []]

def elevatedThenEchoed : List (ChainOp Bool) :=
  [.elevate [2] "user" [], .elevate [3] "moderator" []] ++ List.replicate 7 .deliverUp ++
  List.replicate 7 (.deliverDown false) ++ List.replicate 7 (.deliverDown true)

/-- What each edge answers at the end of a run for the id the session was minted with. -/
def answers (ops : List (ChainOp Bool)) : List QByteArray :=
  [false, true].map fun i =>
    ((run (step false) minted ops).mesh.edge i).rotationOf (run (step false) minted ops).mesh.now [1]

theorem chain_not_followed :
    (∀ ops ∈ [elevatedThrice, elevatedAcrossEcho, elevatedThenEchoed],
      Each (step false) Admitted minted ops ∧ ¬ Followed false (run (step false) minted ops)) ∧
    answers elevatedThrice = [[], []] ∧ answers elevatedAcrossEcho = [[], []] ∧
    answers elevatedThenEchoed = [[3], []] := by
  refine ⟨?_, by decide +kernel, by decide +kernel, by decide +kernel⟩
  intro ops hops
  simp only [mem_cons, not_mem_nil, or_false] at hops
  rcases hops with rfl | rfl | rfl
  · refine ⟨by decide +kernel, fun h => ?_⟩
    exact absurd ((h ⟨[1], [2], 0⟩ (by decide +kernel) (by decide +kernel)).1 (by decide +kernel)) (by decide +kernel)
  · refine ⟨by decide +kernel, fun h => ?_⟩
    exact absurd ((h ⟨[1], [2], 0⟩ (by decide +kernel) (by decide +kernel)).1 (by decide +kernel)) (by decide +kernel)
  · refine ⟨by decide +kernel, fun h => ?_⟩
    have hl := (h ⟨[1], [2], 0⟩ (by decide +kernel) (by decide +kernel)).2 (by decide +kernel)
    exact absurd (hl.2 true (by decide +kernel) (by decide +kernel) (by decide +kernel)) (by decide +kernel)

end ChainRun
end SynQt
