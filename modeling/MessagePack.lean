import MessagePack.Main
import MessagePack.Proofs.Agreement
import MessagePack.Proofs.AllOrNothing
import MessagePack.Proofs.BlobLimit
import MessagePack.Proofs.ByteQueue
import MessagePack.Proofs.CallLog
import MessagePack.Proofs.Canonical
import MessagePack.Proofs.Cutting
import MessagePack.Proofs.Delivery
import MessagePack.Proofs.Dispatch
import MessagePack.Proofs.Dump
import MessagePack.Proofs.Encoded
import MessagePack.Proofs.Fields
import MessagePack.Proofs.Footprint
import MessagePack.Proofs.Forced
import MessagePack.Proofs.Growth
import MessagePack.Proofs.Isolation
import MessagePack.Proofs.Lines
import MessagePack.Proofs.Log
import MessagePack.Proofs.Recognition
import MessagePack.Proofs.RoundTrip
import MessagePack.Proofs.Runs
import MessagePack.Proofs.Safety
import MessagePack.Proofs.Standing
import MessagePack.Proofs.Transcripts
import MessagePack.Proofs.Views
import MessagePack.Proofs.Walking
import MessagePack.Proofs.Work
import MessagePack.Specimen
import MessagePack.Transcript
