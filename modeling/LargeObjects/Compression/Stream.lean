import LargeObjects.Compression.Codec
import LargeObjects.Gathering

/-! Streams of content over the files of a store. A compressed file is one octet that names the
algorithm, followed by what the codec puts out; a plain file is the content itself. -/
namespace LargeObjects

inductive Algorithm where
  | zstd (level : Int)
deriving DecidableEq

namespace Algorithm

def defaultLevel : Int := 3

def zstdTag : UInt8 := 1

def tag : Algorithm → UInt8
  | zstd _ => zstdTag

end Algorithm

variable [Codec]

/-- Content on its way into a file. What the codec has put out is `ready` until the next call. -/
inductive Sink (σ : Type) [FileStore σ] where
  | plain (writer : FileStore.Writer σ)
  | framed (writer : FileStore.Writer σ) (encoder : Codec.Encoder) (ready : Bytes)

namespace Sink

variable {σ : Type} [FileStore σ]

def writeAll (writer : FileStore.Writer σ) (bytes : Bytes) : Step StreamError σ Unit :=
  if bytes = [] then pure () else FileStore.write writer bytes

def start (writer : FileStore.Writer σ) : Option Algorithm → Step StoreError σ (Sink σ)
  | none => pure (plain writer)
  | some (.zstd level) => fun s =>
    match writeAll writer [(Algorithm.zstd level).tag] s with
    | .error e s => .error (.stream e) s
    | .ok _ s =>
      match Codec.newEncoder level with
      | .ok encoder => .ok (framed writer encoder []) s
      | .error e => .error (.compression (.unstarted e)) s

def writer : Sink σ → FileStore.Writer σ
  | plain w => w
  | framed w _ _ => w

def isCompressed : Sink σ → Bool
  | plain _ => false
  | framed _ _ _ => true

/-- Takes content. What is ready goes out first; what the content makes ready waits for the next
call. -/
def write (content : Bytes) : Step StreamError (Sink σ × σ) Unit := fun (sink, s) =>
  match sink with
  | plain w =>
    match writeAll w content s with
    | .ok _ s => .ok () (sink, s)
    | .error e s => .error e (sink, s)
  | framed w encoder ready =>
    if content = [] then .ok () (sink, s)
    else match writeAll w ready s with
      | .error e s => .error e (sink, s)
      | .ok _ s =>
        match Codec.absorb encoder content with
        | .ok (encoder, ready) => .ok () (framed w encoder ready, s)
        | .error e => .error e (framed w encoder [], s)

def flush : Step StreamError (Sink σ × σ) Unit := fun (sink, s) =>
  let flushed (sink : Sink σ) (s : σ) : EStateM.Result StreamError (Sink σ × σ) Unit :=
    match FileStore.flush sink.writer s with
    | .ok _ s => .ok () (sink, s)
    | .error e s => .error e (sink, s)
  match sink with
  | plain _ => flushed sink s
  | framed w encoder ready =>
    match writeAll w ready s with
    | .error e s => .error e (sink, s)
    | .ok _ s =>
      match Codec.flush encoder with
      | .error e => .error e (framed w encoder [], s)
      | .ok (encoder, ready) =>
        match writeAll w ready s with
        | .error e s => .error e (framed w encoder ready, s)
        | .ok _ s => flushed (framed w encoder []) s

/-- Completes the stream. Failing to write the end of a compressed stream is a failure of the
compression. -/
def finish : Step StoreError (Sink σ × σ) Unit := fun (sink, s) =>
  let flushed (s : σ) : EStateM.Result StoreError (Sink σ × σ) Unit :=
    match FileStore.flush sink.writer s with
    | .ok _ s => .ok () (sink, s)
    | .error e s => .error (.stream e) (sink, s)
  let unfinished (e : StreamError) (s : σ) : EStateM.Result StoreError (Sink σ × σ) Unit :=
    .error (.compression (.unfinished e)) (sink, s)
  match sink with
  | plain _ => flushed s
  | framed w encoder ready =>
    match writeAll w ready s with
    | .error e s => unfinished e s
    | .ok _ s =>
      match Codec.finish encoder with
      | .error e => unfinished e s
      | .ok octets =>
        match writeAll w octets s with
        | .error e s => unfinished e s
        | .ok _ s => flushed s

end Sink

/-- Content on its way out: of memory, of a plain file, or of a compressed file, where `ready` is
content that is decoded and not yet read. -/
inductive ContentReader (σ : Type) [FileStore σ] where
  | inline (rest : Bytes)
  | plain (reader : FileStore.Reader σ)
  | framed (reader : FileStore.Reader σ) (decoding : Decoding) (ready : Bytes)

namespace ContentReader

variable {σ : Type} [FileStore σ]

def start (reader : FileStore.Reader σ) (compressed : Bool) :
    Step StoreError σ (ContentReader σ) := fun s =>
  if !compressed then .ok (plain reader) s
  else match FileStore.read 1 (reader, s) with
    | .error e (_, s) => .error (.stream e) s
    | .ok [] (_, s) => .error (.compression .missingTag) s
    | .ok (tag :: _) (reader, s) =>
      if tag = Algorithm.zstdTag then
        match Codec.newDecoder with
        | .ok decoder => .ok (framed reader (.live decoder) []) s
        | .error e => .error (.compression (.unstarted e)) s
      else .error (.unknownCompression tag) s

def unread : ContentReader σ → σ → Nat
  | inline rest, _ => rest.length
  | plain r, s => FileStore.unread r s
  | framed r _ ready, s => ready.length + Codec.expansion * FileStore.unread r s

/-- Fetches and decodes until there is content, which then is the answer, or the end is reached.
After the end, and after a failure of the decoder, nothing is fetched any more; a failure of the
store leaves everything as it is, to be tried again. `fuel` bounds the number of fetches. -/
def refill (r : FileStore.Reader σ) (decoding : Decoding) (limit : Nat) :
    Nat → Step StreamError (ContentReader σ × σ) Bytes
  | 0 => pure []
  | fuel + 1 => fun (_, s) =>
    match decoding with
    | .ended none => .ok [] (framed r decoding [], s)
    | .ended (some e) => .error e (framed r decoding [], s)
    | .live _ =>
      match FileStore.read Codec.fetchSize (r, s) with
      | .error e (r, s) => .error e (framed r decoding [], s)
      | .ok [] (r, s) => refill r decoding.close limit fuel (framed r decoding.close [], s)
      | .ok fetched (r, s) =>
        match decoding.feed fetched with
        | ([], further) => refill r further limit fuel (framed r further [], s)
        | (ready, further) => .ok (ready.take limit) (framed r further (ready.drop limit), s)

def read (limit : Nat) : Step StreamError (ContentReader σ × σ) Bytes := fun (c, s) =>
  match c with
  | inline rest => .ok (rest.take limit) (inline (rest.drop limit), s)
  | plain r =>
    match FileStore.read limit (r, s) with
    | .ok bytes (r, s) => .ok bytes (plain r, s)
    | .error e (r, s) => .error e (plain r, s)
  | framed r decoding [] => refill r decoding limit (FileStore.unread r s + 2) (c, s)
  | framed r decoding ready => .ok (ready.take limit) (framed r decoding (ready.drop limit), s)

def readUpTo (wanted : Nat) : Step StreamError (ContentReader σ × σ) Bytes := do
  let gathered ← Gathering.fill read (wanted + 1) (some wanted) (.ofCapacity 0)
  return gathered.bytes

def readAll (capacity : Nat) : Step StreamError (ContentReader σ × σ) Bytes := fun (c, s) =>
  let all : Step StreamError (ContentReader σ × σ) Bytes := do
    let gathered ← Gathering.fill read (c.unread s + 1) none (.ofCapacity capacity)
    return gathered.bytes
  all (c, s)

end ContentReader

end LargeObjects
