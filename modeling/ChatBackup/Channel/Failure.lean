/-!
# Failures of a byte channel

What can go wrong while bytes move between a source, the stages in between and a sink. A failure
is recorded by its cause; `Failure.kind` sorts the causes and `Failure.message` words them.
-/

namespace ChatBackup

/-- The sort of a failure, coarse enough for a caller to act on. -/
inductive FailureKind where
  | notFound
  | permissionDenied
  | connectionRefused
  | connectionReset
  | connectionAborted
  | notConnected
  | addrInUse
  | addrNotAvailable
  | brokenPipe
  | alreadyExists
  | wouldBlock
  | invalidInput
  | invalidData
  | timedOut
  | writeZero
  | interrupted
  | unsupported
  | unexpectedEof
  | outOfMemory
  | other
  deriving DecidableEq, Repr

/-- Why moving bytes failed. -/
inductive Failure where
  /-- A device refused an operation, in its own words. -/
  | device (kind : FailureKind) (text : String)
  /-- An operation was interrupted and not tried again. -/
  | interrupted
  /-- A sink accepted no more bytes while some were left to write. -/
  | bufferNotWritten
  /-- A sink accepted no byte of a compressed chunk. -/
  | nothingWritten
  /-- A source ended before a buffer of fixed length was filled. -/
  | bufferNotFilled
  /-- A source ended inside the part that the authentication code covers. -/
  | bodyCut (seen expected : Nat)
  /-- The compressed stream ended inside its header or its trailer. -/
  | gzipCut
  /-- The compressed stream does not open with a header that can be read. -/
  | gzipHeader
  /-- A text field of the compressed stream's header is longer than allowed. -/
  | gzipFieldTooLong
  /-- A checksum or length recorded in the compressed stream does not match. -/
  | gzipChecksum
  /-- The compressed data breaks the rules of its format. -/
  | deflateCorrupt
  /-- The compressed data ends before its last block does. -/
  | deflateCut
  /-- The ciphertext ended with a block that is missing or not whole. -/
  | cipherUnaligned (length : Nat)
  /-- The last block of the ciphertext does not end in valid padding. -/
  | cipherPadding
  /-- More bytes wait for encryption than the last block can hold. Nothing reports this as a
  failure: the operation as a whole is aborted with a panic, and no caller gets to see a result. -/
  | cipherOverrun (pending : Nat)
  deriving DecidableEq, Repr

namespace Failure

/-- The sort of each cause. -/
def kind : Failure → FailureKind
  | device k _ => k
  | interrupted => .interrupted
  | bufferNotWritten | nothingWritten => .writeZero
  | bufferNotFilled | bodyCut _ _ | gzipCut | deflateCut => .unexpectedEof
  | gzipHeader | gzipFieldTooLong | gzipChecksum | deflateCorrupt => .invalidInput
  | cipherUnaligned _ | cipherPadding => .invalidData
  -- a panic has no kind and no words; these stand here only so that every cause has some
  | cipherOverrun _ => .other

/-- The words for each cause. -/
def message : Failure → String
  | device _ text => text
  | interrupted => "operation interrupted"
  | bufferNotWritten => "failed to write whole buffer"
  | nothingWritten => "write zero"
  | bufferNotFilled => "failed to fill whole buffer"
  | bodyCut seen expected =>
    "stream ended after " ++ toString seen ++ " of " ++ toString expected
      ++ " authenticated bytes"
  | gzipCut => "unexpected end of file"
  | gzipHeader => "invalid gzip header"
  | gzipFieldTooLong => "gzip header field too long"
  | gzipChecksum => "corrupt gzip stream does not have a matching checksum"
  | deflateCorrupt => "corrupt deflate stream"
  | deflateCut => "incomplete deflate stream"
  | cipherUnaligned length =>
    "ciphertext tail is not block aligned (" ++ toString length ++ " bytes)"
  | cipherPadding => "invalid PKCS#7 padding"
  | cipherOverrun pending => toString pending ++ " bytes pending for the last block"

end Failure

/-- How one attempt to move bytes ended: it was done, it was interrupted before anything moved
and may be tried again, or it failed. -/
inductive Outcome (α : Type) where
  | done (value : α)
  | interrupted
  | failed (failure : Failure)
  deriving DecidableEq, Repr

namespace Outcome

variable {α : Type}

/-- The outcome as a result, for a caller that does not try again. -/
def settle : Outcome α → Except Failure α
  | done a => .ok a
  | interrupted => .error .interrupted
  | failed e => .error e

end Outcome
end ChatBackup
